import LiberalOS.Agents.Evaluator

/-!
# The stages of the pipeline

The agents `parser`, `classifier`, `rootcause` and `fixsuggest` differ in their role only; the
evaluator may make several calls for a line. What they share is that `proxy_readline` returns 0 both
at the end of the file and for an empty line, and that their loops stop there.

## Main results

* `noLineLost_stageRun` — a stage calls for every line and stops at the end of the file exactly if
  no empty line stands before another line.
-/
namespace LiberalOS.Agents
open Foundation Proxy

/-! ## The agents -/

/-- The calls made by an agent, and the lines it has written. -/
structure AgentState where
  calls : List CString
  out : List (List UInt8)

/-- What a plain agent does with a line. The `i`-th call is answered by `reply i`. -/
def agentLine (role : CString) (reply : Nat → Option Response) (s : AgentState) (line : CString) :
    AgentState × Bool :=
  match reply s.calls.length with
  | none => ({ s with calls := s.calls ++ [line] }, false)
  | some resp =>
    (⟨s.calls ++ [line], s.out ++ [emit (.ofBytes (role.bytes ++ [58])) resp.text]⟩, true)

def agent (role : CString) (reply : Nat → Option Response) (input : List UInt8) :
    LoopEnd AgentState :=
  lineLoop (agentLine role reply) (input.length + 1) ⟨[], []⟩ input

def parser : (Nat → Option Response) → List UInt8 → LoopEnd AgentState := agent (.lit "parser")

def classifier : (Nat → Option Response) → List UInt8 → LoopEnd AgentState :=
  agent (.lit "classifier")

def rootcause : (Nat → Option Response) → List UInt8 → LoopEnd AgentState :=
  agent (.lit "rootcause")

def fixsuggest : (Nat → Option Response) → List UInt8 → LoopEnd AgentState :=
  agent (.lit "fixsuggest")

inductive Stage where
  | parser
  | classifier
  | rootcause
  | fixsuggest
  | evaluator

def LoopEnd.map {σ τ : Type*} (f : σ → τ) (e : LoopEnd σ) : LoopEnd τ :=
  ⟨f e.state, e.failed, e.rest⟩

/-- A run of a stage, with the prompts of the calls it makes. -/
def stageRun (env : EvalEnv) (input : List UInt8) : Stage → LoopEnd (List CString)
  | .parser => (parser env.reply input).map AgentState.calls
  | .classifier => (classifier env.reply input).map AgentState.calls
  | .rootcause => (rootcause env.reply input).map AgentState.calls
  | .fixsuggest => (fixsuggest env.reply input).map AgentState.calls
  | .evaluator => (evaluator env input).map EvalState.calls

/-! ## Losing no line -/

/-- The calls for some lines: line by line, at least one for each. -/
inductive CallsFor : List CString → List CString → Prop
  | nil : CallsFor [] []
  | cons (line : CString) (n : Nat) {lines calls : List CString} (rest : CallsFor lines calls) :
      CallsFor (line :: lines) (List.replicate (n + 1) line ++ calls)

/-- The text of each line of the input that is not empty. -/
def nonemptyLines (input : List UInt8) : List CString :=
  ((inputLines input).filter (· ≠ [])).map lineText

/-- A stage that calls for all the lines of its input, and stops early only if a call fails. -/
structure NoLineLost (reply : Nat → Option Response) (input : List UInt8)
    (e : LoopEnd (List CString)) : Prop where
  called : ∃ handled, CallsFor handled e.state ∧ handled <+: nonemptyLines input ∧
    (e.failed = false → handled = nonemptyLines input)
  at_end : e.failed = false → e.rest = []
  on_error : e.failed = true → reply (e.state.length - 1) = none

/-- No empty line stands before another line. -/
def EmptyOnlyLast (input : List UInt8) : Prop := [] ∉ (inputLines input).dropLast

instance (input : List UInt8) : Decidable (EmptyOnlyLast input) := instDecidableNot

theorem tail_linesBehind_eq_nil_iff (input : List UInt8) :
    (linesBehind input).tail = [] ↔ EmptyOnlyLast input := by
  unfold linesBehind EmptyOnlyLast
  induction inputLines input with
  | nil => simp
  | cons line lines ih =>
    by_cases h : line = []
    · cases lines <;> simp [h]
    · have : [] ≠ line := fun he => h he.symm
      cases lines with
      | nil => simp [h]
      | cons next lines => simpa [h, this] using ih

/-- The lines before the first empty one are then all that are not empty. -/
theorem leadingLines_eq {input : List UInt8} (h : EmptyOnlyLast input) :
    leadingLines input = nonemptyLines input := by
  unfold leadingLines nonemptyLines EmptyOnlyLast at *
  congr 1
  generalize inputLines input = lines at h
  induction lines with
  | nil => rfl
  | cons line lines ih =>
    cases lines with
    | nil => by_cases h : line = [] <;> simp [h]
    | cons next lines =>
      have hline : line ≠ [] := fun he => h (by simp [he])
      have hrest := ih fun hm => h (by simp [hm])
      simpa [hline] using hrest

/-! ## The calls of a run -/

/-- Handling a line makes at least one call, all of them for the line, and reports a failure only
if the last one has failed. -/
def CallsOnce {σ : Type*} (reply : Nat → Option Response) (calls : σ → List CString)
    (body : σ → CString → σ × Bool) : Prop :=
  ∀ s line, ∃ n, calls (body s line).1 = calls s ++ List.replicate (n + 1) line ∧
    ((body s line).2 = false → reply ((calls s).length + n) = none)

theorem callsOnce_agentLine (role : CString) (reply : Nat → Option Response) :
    CallsOnce reply AgentState.calls (agentLine role reply) := by
  intro s line
  refine ⟨0, ?_⟩
  unfold agentLine
  split
  next hreply => exact ⟨rfl, fun _ => hreply⟩
  next => simp

/-- The attempts for a line call once for each of them that is made. -/
theorem calls_evalAttempts (env : EvalEnv) (line : CString) (left : Nat) (s : EvalState) : ∃ n,
    (evalAttempts env line (left + 1) s).1.calls = s.calls ++ List.replicate (n + 1) line ∧
      ((evalAttempts env line (left + 1) s).2 = none →
        env.reply (s.calls.length + n) = none) := by
  induction left generalizing s with
  | zero =>
    refine ⟨0, ?_⟩
    rw [evalAttempts]
    split
    next hreply => exact ⟨rfl, fun _ => hreply⟩
    next =>
      dsimp only
      split
      · exact ⟨rfl, by simp⟩
      · exact ⟨rfl, by simp [evalAttempts]⟩
  | succ left ih =>
    rw [evalAttempts]
    split
    next hreply => exact ⟨0, rfl, fun _ => hreply⟩
    next resp hreply =>
      dsimp only
      split
      · exact ⟨0, rfl, by simp⟩
      next =>
        -- the next attempt starts with one call more
        obtain ⟨n, hcalls, hfail⟩ := ih ((s.answered line resp (left + 1 + 1 == maxRetries)).reject
          env _ _ line)
        rw [EvalState.calls_reject, EvalState.calls_answered] at hcalls hfail
        refine ⟨n + 1, ?_, ?_⟩
        · rw [hcalls, List.replicate_succ, List.append_assoc]
          rfl
        · intro h
          have hnone := hfail h
          rw [List.length_append, List.length_singleton, Nat.add_assoc, Nat.add_comm 1] at hnone
          exact hnone

theorem callsOnce_evalLine (env : EvalEnv) :
    CallsOnce env.reply EvalState.calls (evalLine env) := by
  intro s line
  obtain ⟨n, hcalls, hfail⟩ := calls_evalAttempts env line 2 { s with lastResp := .lit "" }
  refine ⟨n, ?_⟩
  unfold evalLine
  split
  next s' h =>
    rw [maxRetries] at h
    rw [h] at hcalls hfail
    exact ⟨hcalls, fun _ => hfail rfl⟩
  next s' h =>
    rw [maxRetries] at h
    rw [h] at hcalls
    exact ⟨hcalls, by simp⟩
  next s' h =>
    rw [maxRetries] at h
    rw [h] at hcalls
    exact ⟨hcalls, by simp⟩

section
variable {σ : Type*} {reply : Nat → Option Response} {calls : σ → List CString}
  {body : σ → CString → σ × Bool} (honce : CallsOnce reply calls body)
include honce

theorem CallsOnce.runLines (s : σ) (lines : List CString) :
    ∃ handled made, CallsFor handled made ∧ handled <+: lines ∧
      calls (runLines body s lines).1 = calls s ++ made ∧
      ((Agents.runLines body s lines).2 = false → handled = lines) ∧
      ((Agents.runLines body s lines).2 = true →
        reply ((calls s ++ made).length - 1) = none) := by
  induction lines generalizing s with
  | nil => exact ⟨[], [], .nil, List.nil_prefix, by simp [Agents.runLines]⟩
  | cons line lines ih =>
    obtain ⟨n, hcalls, hfail⟩ := honce s line
    rw [Agents.runLines]
    cases hgo : (body s line).2 with
    | false =>
      refine ⟨[line], _, .cons line n .nil, by simp, ?_⟩
      have hlast := hfail hgo
      simpa [hgo, hcalls] using hlast
    | true =>
      obtain ⟨handled, made, hfor, hfront, hmade, hall, herror⟩ := ih (body s line).1
      refine ⟨line :: handled, _, .cons line n hfor, ?_, ?_⟩
      · exact List.cons_prefix_cons.mpr ⟨rfl, hfront⟩
      · rw [hcalls, List.append_assoc] at hmade herror
        simp only [if_true]
        exact ⟨hmade, fun h => by rw [hall h], herror⟩

/-- A loop whose body calls once loses no line if no empty line stands before another one, and
otherwise it stops before the end of the file. -/
theorem CallsOnce.noLineLost {s : σ} (hstart : calls s = []) (input : List UInt8) :
    (EmptyOnlyLast input → NoLineLost reply input
        ((lineLoop body (input.length + 1) s input).map calls)) ∧
      ((∀ i, (reply i).isSome) → NoLineLost reply input
        ((lineLoop body (input.length + 1) s input).map calls) → EmptyOnlyLast input) := by
  obtain ⟨hstate, hfailed, hrest⟩ := lineLoop_eq body (Nat.lt_add_one input.length) s
  obtain ⟨handled, made, hfor, hfront, hmade, hall, herror⟩ :=
    honce.runLines s (leadingLines input)
  rw [hstart, List.nil_append] at hmade herror
  rw [← hstate] at hmade
  rw [← hfailed] at hall herror
  generalize lineLoop body (input.length + 1) s input = e at *
  obtain rfl : calls e.state = made := hmade
  constructor
  · intro hlast
    rw [leadingLines_eq hlast] at hfront hall
    refine ⟨⟨handled, hfor, hfront, hall⟩, fun hok => ?_, herror⟩
    have hnone := hrest hok
    rwa [(tail_linesBehind_eq_nil_iff input).mpr hlast, inputLines_eq_nil_iff] at hnone
  · intro hanswers hlost
    have hok : e.failed = false := by
      by_contra hbad
      have hnone := hlost.on_error (Bool.eq_true_of_not_eq_false hbad)
      have hsome := hanswers ((calls e.state).length - 1)
      rw [show (e.map calls).state = calls e.state from rfl] at hnone
      rw [hnone] at hsome
      cases hsome
    rw [← tail_linesBehind_eq_nil_iff, ← hrest hok, inputLines_eq_nil_iff]
    exact hlost.at_end hok

end

/-! ## All stages -/

/-- Each stage loses no line if no empty line stands before another one. Where all its calls are
answered this is the only case: behind such an empty line there is input left that it never
reads. -/
theorem noLineLost_stageRun (stage : Stage) (env : EvalEnv) (input : List UInt8) :
    (EmptyOnlyLast input → NoLineLost env.reply input (stageRun env input stage)) ∧
      ((∀ i, (env.reply i).isSome) → NoLineLost env.reply input (stageRun env input stage) →
        EmptyOnlyLast input) := by
  cases stage with
  | parser | classifier | rootcause | fixsuggest =>
    exact (callsOnce_agentLine _ env.reply).noLineLost rfl input
  | evaluator => exact (callsOnce_evalLine env).noLineLost rfl input

/-- The parser on the lines `a` and `b`, both of which it calls for. -/
theorem twoLines_noLineLost :
    NoLineLost contendedSlot.reply [97, 10, 98] (stageRun contendedSlot [97, 10, 98] .parser) :=
  (noLineLost_stageRun .parser contendedSlot [97, 10, 98]).1 (by decide)

/-- An empty line between `a` and `b` ends the run of the parser, although every call is answered:
it never calls for `b`. -/
theorem line_behind_empty_lost :
    (∀ i, (contendedSlot.reply i).isSome) ∧
      nonemptyLines [97, 10, 10, 98, 10] = [.lit "a", .lit "b"] ∧
      (stageRun contendedSlot [97, 10, 10, 98, 10] .parser).state = [.lit "a"] ∧
      ¬ NoLineLost contendedSlot.reply [97, 10, 10, 98, 10]
        (stageRun contendedSlot [97, 10, 10, 98, 10] .parser) := by
  refine ⟨fun _ => rfl, by decide, by decide, fun hlost => ?_⟩
  have hrest := hlost.at_end (by decide)
  exact absurd hrest (by decide)

end LiberalOS.Agents
