import LiberalOS.Host.Triage
import Mathlib.Algebra.BigOperators.Group.List.Basic
import Mathlib.Tactic.FieldSimp
import Mathlib.Tactic.NormNum

/-!
# The retry section of the bench report

`_section_eval_retry` of `bench/report.py` over the results that `_drive_triage` leaves in the files
of the bench directory. The keys of the two kinds of result differ, and a key that is missing counts
as 0.

## Main results

* `sectionEvalRetry_eq_error_iff` — the results without a verdict.
* `printsPassRate_iff` — the runs whose printed pass rate is that of their lines.
-/
namespace LiberalOS.Bench
open Foundation Proxy Host

/-! ## The section -/

/-- A result as it is loaded: of a run that timed out, or of one that reached `TRIAGE_DONE`. -/
abbrev RunResult := TriageTimeout ⊕ TriageReport

/-- `r.get("evaluator_lines", 0)` -/
def evaluatorLines : RunResult → ℕ := Sum.elim TriageTimeout.evaluatorLines
  TriageReport.evaluatorLines

/-- `r.get("eval_oks", 0)` -/
def evalOks : RunResult → ℕ := Sum.elim (fun _ => 0) TriageReport.evalOks

/-- `r.get("eval_fails", 0)` -/
def evalFails : RunResult → ℕ := Sum.elim (fun _ => 0) TriageReport.evalFails

/-- `r.get("eval_retries", 0)` -/
def evalRetries : RunResult → ℕ := Sum.elim (fun _ => 0) TriageReport.evalRetries

def maxRetries : ℕ := 3

/-- `ZeroDivisionError` -/
inductive DivisionError where
  | zeroDivision
  deriving DecidableEq

/-- What the section shows: the totals, the pass rate in percent before it is rounded, and whether
the mechanism is reported as verified. -/
structure EvalRetrySection where
  totalLines : ℕ
  totalOks : ℕ
  totalFails : ℕ
  totalRetries : ℕ
  finalPassRate : ℚ
  mechanism : Bool

/-- `total_oks/finals*100` -/
def passRate (totalOks finals : ℕ) : Except DivisionError ℚ :=
  if finals = 0 then .error .zeroDivision else .ok (totalOks / finals * 100)

/-- `_section_eval_retry`; without runs it shows nothing. -/
def sectionEvalRetry (runs : List RunResult) : Except DivisionError (Option EvalRetrySection) :=
  if runs = [] then .ok none
  else
    let totalLines := (runs.map evaluatorLines).sum
    let totalOks := (runs.map evalOks).sum
    let totalFails := (runs.map evalFails).sum
    let totalRetries := (runs.map evalRetries).sum
    (passRate totalOks (totalOks + totalFails)).map fun finalPassRate => some
      { totalLines, totalOks, totalFails, totalRetries, finalPassRate
        mechanism := totalFails > 0 && totalRetries == maxRetries * totalFails }

/-- The section divides by zero exactly if no result has a verdict. -/
theorem sectionEvalRetry_eq_error_iff {runs : List RunResult} (h : runs ≠ []) :
    sectionEvalRetry runs = .error .zeroDivision ↔
      (runs.map evalOks).sum + (runs.map evalFails).sum = 0 := by
  simp only [sectionEvalRetry, if_neg h, passRate]
  split
  · next hzero => exact iff_of_true rfl hzero
  · next hpos => exact iff_of_false (fun herror => by cases herror) hpos

/-- With a verdict the section shows the share of the passes. -/
theorem exists_sectionEvalRetry_iff {runs : List RunResult} {p : ℚ} :
    (∃ s, sectionEvalRetry runs = .ok (some s) ∧ s.finalPassRate = p) ↔
      0 < (runs.map evalOks).sum + (runs.map evalFails).sum ∧
        ((runs.map evalOks).sum : ℚ) / ((runs.map evalOks).sum + (runs.map evalFails).sum : ℕ) * 100
          = p := by
  by_cases hruns : runs = []
  · subst hruns
    refine iff_of_false ?_ (by simp)
    rintro ⟨s, hs, -⟩
    cases hs
  simp only [sectionEvalRetry, if_neg hruns, passRate]
  split
  · next hzero =>
    refine iff_of_false ?_ (by omega)
    rintro ⟨s, hs, -⟩
    cases hs
  · next hpos =>
    constructor
    · rintro ⟨s, hs, rfl⟩
      obtain rfl := Option.some.inj (Except.ok.inj hs)
      exact ⟨by omega, rfl⟩
    · rintro ⟨-, hp⟩
      exact ⟨_, rfl, hp⟩

/-! ## Runs -/

/-- What a run of `_drive_triage` depends on: the handler, its arguments and what it reads. -/
structure Run where
  handler : Handler
  args : TriageArgs
  chunks : List (List UInt8)

namespace Run

def result (r : Run) : RunResult := (driveTriage r.handler r.args r.chunks).2

/-- `TRIAGE_DONE` has been read before the deadline. -/
def finished (r : Run) : Bool :=
  (completeLines newline r.chunks.flatten).any fun line => line == doneLine

theorem finished_iff (r : Run) :
    r.finished = true ↔ doneLine ∈ completeLines newline r.chunks.flatten := by
  simp [finished]

/-- The `evaluator:OK:` lines of the run. -/
def oks (r : Run) : ℕ := (triageLines r.chunks).countP (hasPrefix evaluatorOk)

/-- The `evaluator:FAIL:` lines of the run. -/
def fails (r : Run) : ℕ := (triageLines r.chunks).countP (hasPrefix evaluatorFail)

/-- A result counts the verdicts of a run that has finished, and none of a run that has not. -/
theorem verdicts_result (r : Run) :
    evalOks r.result = (if r.finished then r.oks else 0) ∧
      evalFails r.result = if r.finished then r.fails else 0 := by
  by_cases hdone : r.finished = true
  · obtain ⟨report, hreport, -, hfails, hoks⟩ :=
      driveTriage_report r.handler r.args r.chunks (r.finished_iff.mp hdone)
    rw [result, hreport, if_pos hdone, if_pos hdone]
    exact ⟨hoks, hfails⟩
  · have hleft : ¬ (triageEnd r.handler r.args r.chunks).isRight = true :=
      (triageEnd_isRight r.handler r.args r.chunks).not.mpr (r.finished_iff.not.mp hdone)
    obtain ⟨s, hs⟩ : ∃ s, triageEnd r.handler r.args r.chunks = .inl s := by
      rwa [Bool.not_eq_true, Sum.isRight_eq_false, Sum.isLeft_iff] at hleft
    rw [result, driveTriage_eq, hs, if_neg hdone, if_neg hdone]
    exact ⟨rfl, rfl⟩

end Run

/-- A count over several runs. -/
def total (f : Run → ℕ) (runs : List Run) : ℕ := (runs.map f).sum

def done (runs : List Run) : List Run := runs.filter Run.finished

def timedOut (runs : List Run) : List Run := runs.filter fun r => !r.finished

theorem total_done (f : Run → ℕ) (runs : List Run) :
    total f (done runs) = (runs.map fun r => if r.finished then f r else 0).sum := by
  induction runs <;> grind [total, done]

/-- The runs that have finished and those that have not. -/
theorem total_done_add (f : Run → ℕ) (runs : List Run) :
    total f (done runs) + total f (timedOut runs) = total f runs := by
  induction runs <;> grind [total, done, timedOut]

/-! ## Statement -/

/-- The section is shown, and its pass rate is the share of the `evaluator:OK:` lines among the
verdicts of all runs. -/
def PrintsPassRate (runs : List Run) : Prop :=
  ∃ s, sectionEvalRetry (runs.map Run.result) = .ok (some s) ∧
    s.finalPassRate = total Run.oks runs / (total Run.oks runs + total Run.fails runs : ℕ) * 100

/-- Leaving out some of the verdicts leaves their share as it is. -/
theorem share_eq_iff {a b c d : ℕ} (h : 0 < a + b) :
    (a : ℚ) / (a + b : ℕ) * 100 = (a + c : ℕ) / (a + c + (b + d) : ℕ) * 100 ↔ a * d = c * b := by
  have hab : ((a + b : ℕ) : ℚ) ≠ 0 := by exact_mod_cast h.ne'
  have hall : ((a + c + (b + d) : ℕ) : ℚ) ≠ 0 := by
    have : a + c + (b + d) ≠ 0 := by omega
    exact_mod_cast this
  rw [mul_left_inj' (by norm_num), div_eq_div_iff hab hall]
  norm_cast
  constructor
  · intro heq
    nlinarith
  · intro heq
    nlinarith

theorem sum_evalOks_result (runs : List Run) :
    ((runs.map Run.result).map evalOks).sum = total Run.oks (done runs) := by
  rw [List.map_map, total_done]
  exact congrArg List.sum (List.map_congr_left fun r _ => r.verdicts_result.1)

theorem sum_evalFails_result (runs : List Run) :
    ((runs.map Run.result).map evalFails).sum = total Run.fails (done runs) := by
  rw [List.map_map, total_done]
  exact congrArg List.sum (List.map_congr_left fun r _ => r.verdicts_result.2)

/-- The pass rate is right if there is a verdict in a run that has finished, and the verdicts that
are lost with the runs that have not would not change their share. -/
theorem printsPassRate_iff (runs : List Run) : PrintsPassRate runs ↔
    0 < total Run.oks (done runs) + total Run.fails (done runs) ∧
      total Run.oks (done runs) * total Run.fails (timedOut runs) =
        total Run.oks (timedOut runs) * total Run.fails (done runs) := by
  rw [PrintsPassRate, exists_sectionEvalRetry_iff, sum_evalOks_result, sum_evalFails_result,
    ← total_done_add Run.oks runs, ← total_done_add Run.fails runs]
  exact and_congr_right fun hpos => share_eq_iff hpos

/-- A run that times out before it has read anything. -/
theorem zero_verdicts : ¬ ∀ runs : List Run, runs ≠ [] → PrintsPassRate runs := by
  intro h
  let run : Run := ⟨echoHandler, ⟨"mock".toList, "short.log".toList, "parallel".toList⟩, []⟩
  obtain ⟨s, hs, -⟩ := h [run] (List.cons_ne_nil _ _)
  cases hs

end LiberalOS.Bench
