import LiberalOS.Agents.Evaluator

/-!
# Amendment by the verdict

`amend_from_verdict` corrects the class of fields its verdict is about and leaves the classes that
were checked before alone. So the verdicts of resubmitted proposals move forward through the checks,
whatever the process table is at each of them and whatever the first proposal holds.

## Main results

* `amendment_converges` — a proposal is accepted after at most three amendments.
-/
namespace LiberalOS.Agents
open Foundation Kernel

/-! ## The iteration -/

section
variable (base : FixProposal) (snap : Nat → Option SysSnapshot) (p : FixProposal)

/-- The proposal after `n` rounds of `rc = verify_fix(p, s); amend_from_verdict(p, base, rc)`, with
the snapshot of each round. -/
def amended : Nat → FixProposal
  | 0 => p
  | n + 1 => amendFromVerdict (amended n) base (verifyFix (some (amended n)) (snap n)).1

/-- The verdict of round `n`. -/
def verdictAt (n : Nat) : Verdict := (verifyFix (some (amended base snap p n)) (snap n)).1

end

/-- The place of the check that gives a verdict: fields, ranges, then the action. -/
def stage : Verdict → Nat
  | .errField => 0
  | .errRange => 1
  | .errProtected | .errAction => 2
  | .ok => 3

/-- The proposal passes the checks of the class of a verdict, with every process table. -/
def Passes (p : FixProposal) : Verdict → Prop
  | .errField => p.FieldsOk
  | .errRange => p.RangeOk
  | .errProtected | .errAction => isAllowed p.action = true
  | .ok => True

/-! ## One amendment -/

/-- A text field that was acceptable is so after it is copied. -/
theorem fieldOk_strcopy (dst src : List.Vector UInt8 16) (h : fieldOk src.toList 16 = true) :
    fieldOk (strcopy dst src.toList).toList 16 = true := by
  have htake : src.toList.take 16 = src.toList := List.take_of_length_le src.toList_length.le
  simp only [fieldOk, htake, Bool.and_eq_true, decide_eq_true_eq] at h
  have hstr : cstr (strcopy dst src.toList).toList = cstr src.toList := by
    have hshort : (cstr src.toList).take 15 = cstr src.toList :=
      List.take_of_length_le (by omega)
    simp only [strcopy, List.Vector.toList_mk, hshort]
    exact cstr_append_zero (zero_not_mem_cstr _) _
  have htake' : (strcopy dst src.toList).toList.take 16 = (strcopy dst src.toList).toList :=
    List.take_of_length_le (List.Vector.toList_length _).le
  simp only [fieldOk, htake', hstr, Bool.and_eq_true, decide_eq_true_eq]
  exact h

theorem rangeOk_amend (p base : FixProposal) : (amendFromVerdict p base .errRange).RangeOk := by
  have hzero : (0 : Int32) ≤ 0 := Int32.le_refl 0
  have hbounds : fixSeverityMin ≤ fixSeverityMax := by decide
  simp only [amendFromVerdict, FixProposal.RangeOk]
  refine ⟨?_, ?_⟩
  · by_cases hlow : p.severity < fixSeverityMin
    · rw [if_pos hlow, if_neg (Int32.not_lt.mpr hbounds)]
      exact ⟨Int32.le_refl _, hbounds⟩
    · rw [if_neg hlow]
      split
      · exact ⟨hbounds, Int32.le_refl _⟩
      · next hhigh => exact ⟨Int32.not_lt.mp hlow, Int32.not_lt.mp hhigh⟩
  · split
    · exact hzero
    · next hneg => exact Int32.not_lt.mp hneg

variable {p base : FixProposal}

/-- The class of the verdict is corrected. -/
theorem passes_amend_self (hbase : base.FieldsOk) (rc : Verdict) :
    Passes (amendFromVerdict p base rc) rc := by
  cases rc with
  | ok => trivial
  | errField => exact ⟨fieldOk_strcopy _ _ hbase.1, fieldOk_strcopy _ _ hbase.2⟩
  | errRange => exact rangeOk_amend p base
  | errProtected => exact (by decide : isAllowed fixActionReport = true)
  | errAction => exact (by decide : isAllowed fixActionRequeue = true)

/-- What the proposal passes is not reintroduced by the correction of another class. -/
theorem Passes.amend (hbase : Accepted base) {c : Verdict} (h : Passes p c) (rc : Verdict) :
    Passes (amendFromVerdict p base rc) c := by
  obtain ⟨hrole, htarget, hsev, hretry, hallowed⟩ := (accepted_iff base).mp hbase
  cases rc with
  | ok =>
    cases c with
    | ok => trivial
    | errField => exact ⟨hrole, htarget⟩
    | errRange => exact ⟨hsev, hretry⟩
    | errProtected => exact hallowed
    | errAction => exact hallowed
  | errField =>
    cases c with
    | errField => exact passes_amend_self ⟨hrole, htarget⟩ .errField
    | _ => exact h
  | errRange =>
    cases c with
    | errRange => exact rangeOk_amend p base
    | _ => exact h
  | errProtected =>
    cases c with
    | errField => exact ⟨h.1, fieldOk_strcopy _ _ htarget⟩
    | errProtected => exact (by decide : isAllowed fixActionReport = true)
    | errAction => exact (by decide : isAllowed fixActionReport = true)
    | _ => exact h
  | errAction =>
    cases c with
    | errProtected => exact (by decide : isAllowed fixActionRequeue = true)
    | errAction => exact (by decide : isAllowed fixActionRequeue = true)
    | _ => exact h

/-! ## The verdicts -/

theorem Passes.of_stage_eq {c d : Verdict} (h : stage d = stage c) (hc : Passes p c) :
    Passes p d := by
  cases c <;> cases d <;> first | exact hc | cases h

theorem stage_verdict (p : FixProposal) (s : Option SysSnapshot) :
    stage (verifyFix (some p) s).1 =
      if ¬ p.FieldsOk then 0 else if ¬ p.RangeOk then 1
      else if isAllowed p.action then 3 else 2 := by
  rw [verifyFix_verdict]
  split
  · rfl
  split
  · rfl
  split
  · rfl
  split <;> rfl

/-- The classes before the one of the verdict are passed. -/
theorem passes_of_stage_lt {s : Option SysSnapshot} {c : Verdict}
    (h : stage c < stage (verifyFix (some p) s).1) : Passes p c := by
  rw [stage_verdict] at h
  by_cases hfields : p.FieldsOk
  · by_cases hrange : p.RangeOk
    · by_cases hallowed : isAllowed p.action = true
      · cases c with
        | errField => exact hfields
        | errRange => exact hrange
        | errProtected => exact hallowed
        | errAction => exact hallowed
        | ok => trivial
      · cases c with
        | errField => exact hfields
        | errRange => exact hrange
        | _ => simp [hfields, hrange, hallowed, stage] at h
    · cases c with
      | errField => exact hfields
      | _ => simp [hfields, hrange, stage] at h
  · simp [hfields] at h

/-- A proposal that passes the classes up to one is judged by a later one. -/
theorem stage_lt_of_passes {c : Verdict} (hc : c ≠ .ok)
    (h : ∀ d, stage d ≤ stage c → Passes p d) (s : Option SysSnapshot) :
    stage c < stage (verifyFix (some p) s).1 := by
  rw [stage_verdict]
  have hfields : p.FieldsOk := h .errField (Nat.zero_le _)
  cases c with
  | errField =>
    by_cases hrange : p.RangeOk <;> by_cases hallowed : isAllowed p.action = true <;>
      simp [hfields, hrange, hallowed, stage]
  | errRange =>
    have hrange : p.RangeOk := h .errRange (Nat.le_refl _)
    by_cases hallowed : isAllowed p.action = true <;> simp [hfields, hrange, hallowed, stage]
  | errProtected | errAction =>
    have hrange : p.RangeOk := h .errRange (by decide)
    have hallowed : isAllowed p.action = true := h .errAction (Nat.le_refl _)
    simp [hfields, hrange, hallowed, stage]
  | ok => exact absurd rfl hc

/-- After a rejection the amended proposal gets further, whatever the table is by then. -/
theorem stage_lt_amend (hbase : Accepted base) (s s' : Option SysSnapshot)
    (hrej : (verifyFix (some p) s).1 ≠ .ok) :
    stage (verifyFix (some p) s).1 <
      stage (verifyFix (some (amendFromVerdict p base (verifyFix (some p) s).1)) s').1 := by
  obtain ⟨hrole, htarget, -⟩ := (accepted_iff base).mp hbase
  refine stage_lt_of_passes hrej (fun d hd => ?_) s'
  rcases Nat.lt_or_eq_of_le hd with hlt | heq
  · exact (passes_of_stage_lt hlt).amend hbase _
  · exact (passes_amend_self ⟨hrole, htarget⟩ _).of_stage_eq heq

theorem stage_le (c : Verdict) : stage c ≤ 3 := by cases c <;> decide

theorem eq_ok_of_stage {c : Verdict} (h : 3 ≤ stage c) : c = .ok := by
  cases c <;> first | rfl | exact absurd h (by decide)

/-! ## Convergence -/

/-- From any proposal, with an accepted `base` and any snapshots: some round of the first four
accepts; before it every round rejects, by a class that comes later than those of the rounds
before; and no amendment reintroduces a class of violations that the proposal did not have. -/
theorem amendment_converges (p : FixProposal) {base : FixProposal} {snap₀ : Option SysSnapshot}
    (hbase : (verifyFix (some base) snap₀).1 = .ok) (snap : Nat → Option SysSnapshot) :
    (∃ n ≤ 3, verdictAt base snap p n = .ok ∧
      (∀ i < n, verdictAt base snap p i ≠ .ok) ∧
      ∀ i j, i < j → j ≤ n →
        stage (verdictAt base snap p i) < stage (verdictAt base snap p j)) ∧
    ∀ n c, Passes (amended base snap p n) c → Passes (amended base snap p (n + 1)) c := by
  have haccepted : Accepted base :=
    (accepted_iff base).mpr ((verifyFix_ok_iff base snap₀).mp hbase)
  have hstep : ∀ n, verdictAt base snap p n ≠ .ok →
      stage (verdictAt base snap p n) < stage (verdictAt base snap p (n + 1)) :=
    fun n hrej => stage_lt_amend haccepted (snap n) (snap (n + 1)) hrej
  refine ⟨?_, fun n c h => h.amend haccepted _⟩
  -- three rejections in a row bring the fourth verdict to the last stage
  have hends : ∃ n, verdictAt base snap p n = .ok := by
    by_contra hno
    rw [not_exists] at hno
    have hgrows : ∀ n, n ≤ stage (verdictAt base snap p n) := by
      intro n
      induction n with
      | zero => exact Nat.zero_le _
      | succ n ih =>
        have := hstep n (hno n)
        omega
    exact hno 3 (eq_ok_of_stage (hgrows 3))
  have hbefore : ∀ i < Nat.find hends, verdictAt base snap p i ≠ .ok :=
    fun i hi => Nat.find_min hends hi
  have hmono : ∀ i j, i < j → j ≤ Nat.find hends →
      i + stage (verdictAt base snap p j) ≥ j + stage (verdictAt base snap p i) := by
    intro i j hij hj
    induction j with
    | zero => omega
    | succ j ih =>
      have hlast := hstep j (hbefore j (by omega))
      rcases Nat.lt_or_eq_of_le (Nat.le_of_lt_succ hij) with hlt | rfl
      · have := ih hlt (by omega)
        omega
      · omega
  refine ⟨Nat.find hends, ?_, Nat.find_spec hends, hbefore, fun i j hij hj => ?_⟩
  · rcases Nat.eq_zero_or_pos (Nat.find hends) with h0 | hpos
    · omega
    · have hall := hmono 0 _ hpos (Nat.le_refl _)
      have hle := stage_le (verdictAt base snap p (Nat.find hends))
      omega
  · have := hmono i j hij hj
    omega

/-- A proposal with a violation of every class. -/
def worstProposal : FixProposal := ⟨.replicate _ 1, .replicate _ 1, 7, -1, -1⟩

theorem worstProposal_converges : ∃ n ≤ 3,
    verdictAt buildDefaultProposal (fun _ => none) worstProposal n = .ok := by
  have hbase : (verifyFix (some buildDefaultProposal) none).1 = .ok := by decide
  obtain ⟨n, hn, hok, -⟩ := (amendment_converges worstProposal hbase fun _ => none).1
  exact ⟨n, hn, hok⟩

example : (List.range 4).map (verdictAt buildDefaultProposal (fun _ => none) worstProposal) =
    [.errField, .errRange, .errAction, .ok] := by decide

end LiberalOS.Agents
