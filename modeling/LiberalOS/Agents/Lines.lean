import LiberalOS.Proxy.Client

/-!
# Line-oriented agents

The helpers the agent programs under `user/` share: `proxy_readline` of `user/proxy_client.h`, the
`emit` each of them has, and the loop `while (proxy_readline(0, line, sizeof(line)) > 0)` around
what an agent does with a line. Standard input is the list of bytes up to the end of the file.

## Main results

* `lineLoop_eq` — the loop handles the lines before the first empty one, and no others.
-/
namespace LiberalOS.Agents
open Foundation Proxy

/-! ## Reading and writing -/

/-- The loop of `proxy_readline`: the bytes kept of the line, and the input behind it. -/
def proxyReadlineLoop (max : Nat) (buf : List UInt8) : List UInt8 → List UInt8 × List UInt8
  | [] => (buf, [])
  | c :: input =>
    if c = newline then (buf, input)
    else proxyReadlineLoop max (if buf.length < max - 1 then buf ++ [c] else buf) input

/-- The length returned is that of the bytes kept; `none` for the result -1. -/
def proxyReadline (max : Nat) (input : List UInt8) : Option (List UInt8 × List UInt8) :=
  if max ≤ 1 then none else some (proxyReadlineLoop max [] input)

/-- The one `write` of `emit`, through its buffer of 640 bytes. -/
def emit (tag body : CString) : List UInt8 :=
  let buf := tag.bytes.take 639
  let buf := buf ++ body.bytes.take (639 - buf.length)
  buf ++ [newline]

/-! ## The lines of an input -/

/-- The line that `cur` begins, and the input behind it. -/
def takeLine (cur : List UInt8) : List UInt8 → List UInt8 × List UInt8
  | [] => (cur, [])
  | c :: input => if c = newline then (cur, input) else takeLine (cur ++ [c]) input

def linesFrom (cur : List UInt8) : List UInt8 → List (List UInt8)
  | [] => if cur = [] then [] else [cur]
  | c :: input => if c = newline then cur :: linesFrom [] input else linesFrom (cur ++ [c]) input

/-- The lines of an input; the last one need not be terminated. -/
def inputLines (input : List UInt8) : List (List UInt8) := linesFrom [] input

theorem proxyReadlineLoop_eq (max : Nat) (cur input : List UInt8) :
    proxyReadlineLoop max (cur.take (max - 1)) input =
      ((takeLine cur input).1.take (max - 1), (takeLine cur input).2) := by
  induction input generalizing cur with
  | nil => rfl
  | cons c input ih =>
    simp only [proxyReadlineLoop, takeLine]
    split
    · rfl
    · rw [← ih]
      congr 1
      rw [List.length_take]
      split
      · rw [List.take_of_length_le (by omega), List.take_of_length_le (by simp; omega)]
      · rw [List.take_append_of_le_length (by omega)]

theorem length_takeLine (cur input : List UInt8) :
    (takeLine cur input).2.length ≤ input.length - 1 := by
  induction input generalizing cur with
  | nil => rfl
  | cons c input ih =>
    simp only [takeLine]
    split
    · simp
    · have := ih (cur ++ [c])
      simp only [List.length_cons]
      omega

theorem linesFrom_eq (cur input : List UInt8) : linesFrom cur input =
    if cur = [] ∧ input = [] then []
    else (takeLine cur input).1 :: inputLines (takeLine cur input).2 := by
  induction input generalizing cur with
  | nil => by_cases h : cur = [] <;> simp [linesFrom, takeLine, inputLines, h]
  | cons c input ih =>
    simp only [linesFrom, takeLine]
    split
    · simp [inputLines]
    · simp [ih]

theorem inputLines_eq_nil_iff (input : List UInt8) : inputLines input = [] ↔ input = [] := by
  rw [inputLines, linesFrom_eq]
  by_cases h : input = [] <;> simp [h]

theorem inputLines_of_ne_nil {input : List UInt8} (h : input ≠ []) :
    inputLines input = (takeLine [] input).1 :: inputLines (takeLine [] input).2 := by
  rw [inputLines, linesFrom_eq, if_neg (by simp [h])]

theorem linesFrom_newline {text : List UInt8} (h : newline ∉ text) (cur rest : List UInt8) :
    linesFrom cur (text ++ newline :: rest) = (cur ++ text) :: inputLines rest := by
  induction text generalizing cur with
  | nil => simp [linesFrom, inputLines]
  | cons c text ih =>
    have hc : c ≠ newline := fun hc => h (hc ▸ List.mem_cons_self)
    rw [List.cons_append, linesFrom, if_neg hc, ih fun hmem => h (List.mem_cons_of_mem _ hmem)]
    simp

/-- A line ends at its newline, whatever follows. -/
theorem linesFrom_append (cur before rest : List UInt8) :
    linesFrom cur (before ++ newline :: rest) =
      linesFrom cur (before ++ [newline]) ++ inputLines rest := by
  induction before generalizing cur with
  | nil => simp [linesFrom, inputLines]
  | cons c before ih =>
    simp only [List.cons_append, linesFrom]
    split
    · rw [ih, List.cons_append]
    · exact ih _

/-! ## The loop over the lines -/

variable {σ : Type*} (body : σ → CString → σ × Bool)

/-- What a run of an agent's loop ends with: its state, whether a call has failed, and the input
that is left. -/
structure LoopEnd (σ : Type*) where
  state : σ
  failed : Bool
  rest : List UInt8

/-- The loop of an agent over a 256-byte line buffer. `body` handles one line and says whether to
go on; every line takes at least one byte of input, so its length bounds their number. -/
def lineLoop : Nat → σ → List UInt8 → LoopEnd σ
  | 0, s, input => ⟨s, false, input⟩
  | fuel + 1, s, input =>
    match proxyReadline 256 input with
    | none => ⟨s, false, input⟩
    | some (buf, rest) =>
      if buf.length > 0 then
        let r := body s (.ofBytes buf)
        if r.2 then lineLoop fuel r.1 rest else ⟨r.1, true, rest⟩
      else ⟨s, false, rest⟩

/-- The agent's handling of a list of lines. -/
def runLines : σ → List CString → σ × Bool
  | s, [] => (s, false)
  | s, line :: lines =>
    let r := body s line
    if r.2 then runLines r.1 lines else (r.1, true)

/-- The string an agent has in its buffer after reading a line. -/
def lineText (line : List UInt8) : CString := .ofBytes (line.take 255)

/-- The lines before the first empty one. -/
def leadingLines (input : List UInt8) : List CString :=
  ((inputLines input).takeWhile (· ≠ [])).map lineText

/-- The lines from the first empty one on. -/
def linesBehind (input : List UInt8) : List (List UInt8) :=
  (inputLines input).dropWhile (· ≠ [])

theorem proxyReadline_eq (input : List UInt8) : proxyReadline 256 input =
    some ((takeLine [] input).1.take 255, (takeLine [] input).2) := by
  rw [proxyReadline, if_neg (by omega)]
  exact congrArg some (proxyReadlineLoop_eq 256 [] input)

/-- The loop handles the leading lines. When no call fails it stops at the end of the file, or
behind the first empty line. -/
theorem lineLoop_eq {fuel : Nat} {input : List UInt8} (h : input.length < fuel) (s : σ) :
    (lineLoop body fuel s input).state = (runLines body s (leadingLines input)).1 ∧
      (lineLoop body fuel s input).failed = (runLines body s (leadingLines input)).2 ∧
      ((lineLoop body fuel s input).failed = false →
        inputLines (lineLoop body fuel s input).rest = (linesBehind input).tail) := by
  induction fuel generalizing s input with
  | zero => omega
  | succ fuel ih =>
    rw [lineLoop, proxyReadline_eq]
    dsimp only
    by_cases hinput : input = []
    · subst hinput
      simp [takeLine, leadingLines, linesBehind, inputLines, linesFrom, runLines]
    have hlines := inputLines_of_ne_nil hinput
    have hlen := length_takeLine [] input
    have hpos : 0 < input.length := List.length_pos_iff.mpr hinput
    by_cases hempty : (takeLine [] input).1 = []
    · simp [hempty, leadingLines, linesBehind, hlines, runLines]
    · have hline : 0 < ((takeLine [] input).1.take 255).length := by
        have := List.length_pos_iff.mpr hempty
        rw [List.length_take]
        omega
      have hleading : leadingLines input =
          lineText (takeLine [] input).1 :: leadingLines (takeLine [] input).2 := by
        simp [leadingLines, hlines, hempty]
      have hbehind : linesBehind input = linesBehind (takeLine [] input).2 := by
        simp [linesBehind, hlines, hempty]
      have hshort : (takeLine [] input).2.length < fuel := by omega
      rw [if_pos hline, hleading, runLines, hbehind, ← lineText]
      cases hgo : (body s (lineText (takeLine [] input).1)).2 with
      | true => exact ih hshort _
      | false => simp

end LiberalOS.Agents
