import LiberalOS.Kernel.Verifier

/-!
# What a verdict says about a proposal

The protection rule is implemented twice, as a list of names in `verify_fix` and as a walk over the
process table in `fill_snapshot`, and both compare bounded buffers. Here the verdict is stated in
terms of strings and processes.

## Main results

* `verdict_eq_expected` — the verifier and the snapshot together return the verdict so stated.
-/
namespace LiberalOS.Kernel
open Foundation

/-! ## Statement -/

/-- The string in a text field. -/
def fieldStr (f : List.Vector UInt8 16) : List UInt8 := cstr f.toList

/-- Empty, or without a NUL. -/
def MissingField (f : List.Vector UInt8 16) : Prop := fieldStr f = [] ∨ (0 : UInt8) ∉ f.toList

/-- The process is one that no destructive action may touch. -/
def ProcInfo.Protected (pp : ProcInfo) : Prop :=
  fieldStr pp.name = (CString.lit "init").bytes ∨ fieldStr pp.name = (CString.lit "sh").bytes ∨
    fieldStr pp.agentRole = (CString.lit "evaluator").bytes

/-- The target is a protected name, or the name or role of a live process that is protected. -/
def ProtectedTarget (target : List UInt8) (table : ProcTable) : Prop :=
  target ∈ verifyProtectedRoles.map CString.bytes ∨
    ∃ pp ∈ table.toList, pp.state ≠ .unused ∧
      (fieldStr pp.name = target ∨ fieldStr pp.agentRole = target) ∧ pp.Protected

instance (f : List.Vector UInt8 16) : Decidable (MissingField f) :=
  inferInstanceAs (Decidable (_ ∨ _))

instance (pp : ProcInfo) : Decidable pp.Protected := inferInstanceAs (Decidable (_ ∨ _ ∨ _))

instance (target : List UInt8) (table : ProcTable) : Decidable (ProtectedTarget target table) :=
  inferInstanceAs (Decidable (_ ∨ _))

/-- The verdict by its documented meaning. -/
def expectedVerdict (p : FixProposal) (table : ProcTable) : Verdict :=
  if MissingField p.role ∨ MissingField p.target then .errField
  else if ¬ (0 ≤ p.severity ∧ p.severity ≤ 3) ∨ p.retryHint < 0 then .errRange
  else if p.action = fixActionReport ∨ p.action = fixActionAnnotate ∨
      p.action = fixActionRequeue then .ok
  else if ProtectedTarget (fieldStr p.target) table then .errProtected
  else .errAction

/-! ## The comparisons -/

/-- A field is compared as a whole. -/
theorem strncmp_field_eq_zero_iff (f : List.Vector UInt8 16) {q : List UInt8}
    (hq : q.length ≤ 16) : strncmp f.toList q 16 = 0 ↔ fieldStr f = cstr q := by
  have hf : (cstr f.toList).length ≤ 16 := (length_cstr_le _).trans f.toList_length.le
  have hq' : (cstr q).length ≤ 16 := (length_cstr_le q).trans hq
  rw [strncmp_eq_zero_iff, List.take_of_length_le hf, List.take_of_length_le hq', fieldStr]

theorem strncmp_fields_eq_zero_iff (f g : List.Vector UInt8 16) :
    strncmp f.toList g.toList 16 = 0 ↔ fieldStr f = fieldStr g :=
  strncmp_field_eq_zero_iff f g.toList_length.le

theorem strncmp_name_eq_zero_iff (f : List.Vector UInt8 16) {name : CString}
    (hname : name.length ≤ 16) : strncmp f.toList name.bytes 16 = 0 ↔ fieldStr f = name.bytes := by
  rw [strncmp_field_eq_zero_iff f hname, CString.cstr_bytes]

theorem fieldOk_eq_true_iff (f : List.Vector UInt8 16) :
    fieldOk f.toList 16 = true ↔ ¬ MissingField f := by
  have htake : f.toList.take 16 = f.toList := List.take_of_length_le f.toList_length.le
  have hlen : (cstr f.toList).length < 16 ↔ (0 : UInt8) ∈ f.toList := by
    have hf := f.toList_length
    constructor
    · intro h
      exact zero_mem_of_cstr_lt (by omega)
    · intro h
      have := cstr_length_lt_of_zero_mem h
      omega
  have hpos : 1 ≤ (cstr f.toList).length ↔ cstr f.toList ≠ [] := by
    rw [Nat.one_le_iff_ne_zero, ne_eq, List.length_eq_zero_iff]
  simp only [fieldOk, htake, Bool.and_eq_true, decide_eq_true_eq, hlen, hpos, MissingField,
    fieldStr, not_or, not_not]

/-! ## The snapshot -/

/-- The flag is set by a live process that the target names and that is protected. -/
theorem targetProtected_snapshotEntry (p : FixProposal) (s : SysSnapshot) (pp : ProcInfo) :
    (snapshotEntry p s pp).targetProtected = true ↔ s.targetProtected = true ∨
      pp.state ≠ .unused ∧
        (fieldStr pp.name = fieldStr p.target ∨ fieldStr pp.agentRole = fieldStr p.target) ∧
        pp.Protected := by
  simp only [snapshotEntry, strncmp_fields_eq_zero_iff,
    strncmp_name_eq_zero_iff _ (by decide : (CString.lit "init").length ≤ 16),
    strncmp_name_eq_zero_iff _ (by decide : (CString.lit "sh").length ≤ 16),
    strncmp_name_eq_zero_iff _ (by decide : (CString.lit "evaluator").length ≤ 16),
    ProcInfo.Protected]
  split
  · next hunused => simp [hunused]
  · next hlive =>
    split
    · next hnamed =>
      split
      · next hprot => simp [hlive, hnamed, hprot]
      · next hprot => simp [hprot]
    · next hnamed => simp [hnamed]

theorem targetProtected_fillSnapshot (p : FixProposal) (table : ProcTable) :
    (fillSnapshot p table).targetProtected = true ↔ ∃ pp ∈ table.toList, pp.state ≠ .unused ∧
      (fieldStr pp.name = fieldStr p.target ∨ fieldStr pp.agentRole = fieldStr p.target) ∧
      pp.Protected := by
  have hwalk : ∀ (pps : List ProcInfo) (s : SysSnapshot),
      (pps.foldl (snapshotEntry p) s).targetProtected = true ↔ s.targetProtected = true ∨
        ∃ pp ∈ pps, pp.state ≠ .unused ∧
          (fieldStr pp.name = fieldStr p.target ∨ fieldStr pp.agentRole = fieldStr p.target) ∧
          pp.Protected := by
    intro pps
    induction pps with
    | nil => simp
    | cons pp pps ih =>
      intro s
      rw [List.foldl_cons, ih, targetProtected_snapshotEntry, or_assoc]
      simp only [List.mem_cons, exists_eq_or_imp]
  rw [fillSnapshot, hwalk]
  simp

/-- The two protection rules together. -/
theorem targetIsProtected_iff (p : FixProposal) (table : ProcTable) :
    targetIsProtected p (some (fillSnapshot p table)) = true ↔
      ProtectedTarget (fieldStr p.target) table := by
  have hnames : (verifyProtectedRoles.any fun role =>
      strncmp p.target.toList role.bytes fixTargetLen == 0) = true ↔
      fieldStr p.target ∈ verifyProtectedRoles.map CString.bytes := by
    have hshort : ∀ role ∈ verifyProtectedRoles, role.length ≤ 16 := by decide
    rw [List.any_eq_true, List.mem_map]
    constructor
    · rintro ⟨role, hrole, heq⟩
      rw [beq_iff_eq, strncmp_name_eq_zero_iff _ (hshort role hrole)] at heq
      exact ⟨role, hrole, heq.symm⟩
    · rintro ⟨role, hrole, heq⟩
      refine ⟨role, hrole, ?_⟩
      rw [beq_iff_eq, strncmp_name_eq_zero_iff _ (hshort role hrole), heq]
  rw [targetIsProtected, Bool.or_eq_true, hnames, Option.any_some,
    targetProtected_fillSnapshot, ProtectedTarget]

/-! ## The verdict -/

theorem fieldsOk_iff (p : FixProposal) :
    p.FieldsOk ↔ ¬ (MissingField p.role ∨ MissingField p.target) := by
  rw [FixProposal.FieldsOk, fieldOk_eq_true_iff, fieldOk_eq_true_iff, not_or]

theorem rangeOk_iff (p : FixProposal) :
    p.RangeOk ↔ ¬ (¬ (0 ≤ p.severity ∧ p.severity ≤ 3) ∨ p.retryHint < 0) := by
  rw [not_or, not_not, Int32.not_lt]
  rfl

/-- For every proposal and every process table the verdict is the expected one. -/
theorem verdict_eq_expected (p : FixProposal) (table : ProcTable) :
    (verifyFix (some p) (some (fillSnapshot p table))).1 = expectedVerdict p table := by
  have hallowed : isAllowed p.action = true ↔ p.action = fixActionReport ∨
      p.action = fixActionAnnotate ∨ p.action = fixActionRequeue := by
    simp [isAllowed, or_assoc]
  simp only [verifyFix_verdict, expectedVerdict, fieldsOk_iff, rangeOk_iff, not_not, hallowed,
    targetIsProtected_iff]

end LiberalOS.Kernel
