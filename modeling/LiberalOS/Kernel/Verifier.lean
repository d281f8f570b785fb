import Mathlib.Data.Vector.Basic
import LiberalOS.Kernel.Scheduler
import LiberalOS.Kernel.Strings

/-!
# The verifier of fix proposals

`verify_fix` of `kernel/verifier.c`, and the process-table lookup and the system call around it in
`kernel/sysproc.c`. A `char` array field is the vector of its bytes, an `int` field is an `Int32`.

## Main results

* `verifyFix_ok_iff` — what is accepted; the process table has no part in it.
-/
namespace LiberalOS.Kernel
open Foundation

/-! ## Proposals -/

abbrev fixRoleLen : Nat := 16
abbrev fixTargetLen : Nat := 16

def fixActionReport : Int32 := 0
def fixActionAnnotate : Int32 := 1
def fixActionRequeue : Int32 := 2
def fixSeverityMin : Int32 := 0
def fixSeverityMax : Int32 := 3

structure FixProposal where
  role : List.Vector UInt8 fixRoleLen
  target : List.Vector UInt8 fixTargetLen
  action : Int32
  severity : Int32
  retryHint : Int32
  deriving DecidableEq

/-- What the system call resolves about the target of a proposal. -/
structure SysSnapshot where
  targetPid : Int
  targetProtected : Bool
  nproc : Nat

/-- The results of `verify_fix`. -/
inductive Verdict where
  | ok
  | errField
  | errRange
  | errProtected
  | errAction
  deriving DecidableEq

def Verdict.code : Verdict → Int
  | .ok => 0
  | .errField => -1
  | .errRange => -2
  | .errProtected => -3
  | .errAction => -4

/-! ## Verification -/

def verifyProtectedRoles : List CString := [.lit "init", .lit "sh", .lit "evaluator"]

def isDestructive (action : Int32) : Bool :=
  action != fixActionReport && action != fixActionAnnotate && action != fixActionRequeue

def isAllowed (action : Int32) : Bool :=
  action == fixActionReport || action == fixActionAnnotate || action == fixActionRequeue

/-- Non-empty and NUL-terminated within `max` bytes. -/
def fieldOk (f : List UInt8) (max : Nat) : Bool :=
  let n := (cstr (f.take max)).length
  1 ≤ n && n < max

/-- The target is a protected role by name, or the snapshot says so; `none` is a null snapshot. -/
def targetIsProtected (p : FixProposal) (s : Option SysSnapshot) : Bool :=
  verifyProtectedRoles.any (fun role => strncmp p.target.toList role.bytes fixTargetLen == 0) ||
    s.any SysSnapshot.targetProtected

/-- The verdict and the reason given for it; `none` is a null proposal. -/
def verifyFix (p : Option FixProposal) (s : Option SysSnapshot) : Verdict × CString :=
  match p with
  | none => (.errField, .lit "null proposal")
  | some p =>
    if !fieldOk p.role.toList fixRoleLen then
      (.errField, .lit "role field missing or oversized")
    else if !fieldOk p.target.toList fixTargetLen then
      (.errField, .lit "target field missing or oversized")
    else if p.severity < fixSeverityMin ∨ p.severity > fixSeverityMax then
      (.errRange, .lit "severity out of range [0,3]")
    else if p.retryHint < 0 then
      (.errRange, .lit "retry_hint negative")
    else if isDestructive p.action && targetIsProtected p s then
      (.errProtected, .lit "destructive action on protected target")
    else if !isAllowed p.action then
      (.errAction, .lit "action not on whitelist")
    else (.ok, .lit "ok")

theorem isDestructive_eq (action : Int32) : isDestructive action = !isAllowed action := by
  simp [isDestructive, isAllowed, bne]

/-- The required text fields are present and bounded. -/
def FixProposal.FieldsOk (p : FixProposal) : Prop :=
  fieldOk p.role.toList fixRoleLen = true ∧ fieldOk p.target.toList fixTargetLen = true

/-- The numeric fields are in range. -/
def FixProposal.RangeOk (p : FixProposal) : Prop :=
  (fixSeverityMin ≤ p.severity ∧ p.severity ≤ fixSeverityMax) ∧ 0 ≤ p.retryHint

instance (p : FixProposal) : Decidable p.FieldsOk := inferInstanceAs (Decidable (_ ∧ _))

instance (p : FixProposal) : Decidable p.RangeOk := inferInstanceAs (Decidable (_ ∧ _))

/-- The verdict, by the class of the first check that fails. -/
theorem verifyFix_verdict (p : FixProposal) (s : Option SysSnapshot) :
    (verifyFix (some p) s).1 =
      if ¬ p.FieldsOk then .errField
      else if ¬ p.RangeOk then .errRange
      else if isAllowed p.action then .ok
      else if targetIsProtected p s then .errProtected
      else .errAction := by
  have hsev : (p.severity < fixSeverityMin ∨ p.severity > fixSeverityMax) ↔
      ¬ (fixSeverityMin ≤ p.severity ∧ p.severity ≤ fixSeverityMax) := by
    rw [not_and_or, Int32.not_le, Int32.not_le]
  have hretry : p.retryHint < 0 ↔ ¬ 0 ≤ p.retryHint := Int32.not_le.symm
  simp only [verifyFix, FixProposal.FieldsOk, FixProposal.RangeOk, hsev, hretry, isDestructive_eq]
  by_cases hrole : fieldOk p.role.toList fixRoleLen = true
  · by_cases htarget : fieldOk p.target.toList fixTargetLen = true
    · by_cases hs : fixSeverityMin ≤ p.severity ∧ p.severity ≤ fixSeverityMax
      · by_cases hr : 0 ≤ p.retryHint
        · cases hallowed : isAllowed p.action <;> cases hprot : targetIsProtected p s <;>
            simp [hrole, htarget, hs, hr]
        · simp [hrole, htarget, hs, hr]
      · simp [hrole, htarget, hs]
    · simp [hrole, htarget]
  · simp [hrole]

/-- Acceptance depends on the proposal alone. -/
theorem verifyFix_ok_iff (p : FixProposal) (s : Option SysSnapshot) :
    (verifyFix (some p) s).1 = .ok ↔ fieldOk p.role.toList fixRoleLen = true ∧
      fieldOk p.target.toList fixTargetLen = true ∧
      (fixSeverityMin ≤ p.severity ∧ p.severity ≤ fixSeverityMax) ∧ 0 ≤ p.retryHint ∧
      isAllowed p.action = true := by
  have hok : (verifyFix (some p) s).1 = .ok ↔
      p.FieldsOk ∧ p.RangeOk ∧ isAllowed p.action = true := by
    rw [verifyFix_verdict]
    by_cases hfields : p.FieldsOk <;> by_cases hrange : p.RangeOk <;>
      cases hallowed : isAllowed p.action <;> cases hprot : targetIsProtected p s <;>
        simp [hfields, hrange]
  rw [hok, FixProposal.FieldsOk, FixProposal.RangeOk, and_assoc, and_assoc]

/-! ## The system call -/

/-- The fields of a process-table entry that are read here. -/
structure ProcInfo where
  state : ProcState
  pid : Int
  name : List.Vector UInt8 16
  agentRole : List.Vector UInt8 16

abbrev ProcTable := List.Vector ProcInfo nproc

/-- One entry of the table in `fill_snapshot`. -/
def snapshotEntry (p : FixProposal) (s : SysSnapshot) (pp : ProcInfo) : SysSnapshot :=
  if pp.state = .unused then s
  else
    let s := { s with nproc := s.nproc + 1 }
    -- the target names the process or its role
    if strncmp pp.name.toList p.target.toList fixTargetLen = 0 ∨
        strncmp pp.agentRole.toList p.target.toList fixTargetLen = 0 then
      let s := { s with targetPid := pp.pid }
      if strncmp pp.name.toList (CString.lit "init").bytes 16 = 0 ∨
          strncmp pp.name.toList (CString.lit "sh").bytes 16 = 0 ∨
          strncmp pp.agentRole.toList (CString.lit "evaluator").bytes 16 = 0 then
        { s with targetProtected := true }
      else s
    else s

def fillSnapshot (p : FixProposal) (table : ProcTable) : SysSnapshot :=
  table.toList.foldl (snapshotEntry p) ⟨-1, false, 0⟩

/-- `sys_verifyfix` for pointers that do not fault: the verdict, and the bytes stored in the
caller's buffer of `rlen` bytes. The kernel's own buffer starts out as `junk`. -/
def sysVerifyfix (table : ProcTable) (junk : List.Vector UInt8 64) (p : FixProposal) (rlen : Int) :
    Verdict × List UInt8 :=
  let r := verifyFix (some p) (some (fillSnapshot p table))
  let reason := safestrcpy junk.toList r.2.bytes 64
  (r.1, if rlen > 0 then reason.take (min rlen.toNat 64) else [])

/-- Every reason fits the buffer of the system call. -/
theorem length_reason_lt (p : Option FixProposal) (s : Option SysSnapshot) :
    (verifyFix p s).2.bytes.length < 64 := by
  unfold verifyFix
  split
  · decide
  · split
    · decide
    split
    · decide
    split
    · decide
    split
    · decide
    split
    · decide
    split
    · decide
    · decide

/-- The caller reads the reason as the verifier gave it. -/
theorem cstr_sysVerifyfix (table : ProcTable) (junk : List.Vector UInt8 64) (p : FixProposal) :
    cstr (sysVerifyfix table junk p 64).2 =
      (verifyFix (some p) (some (fillSnapshot p table))).2.bytes := by
  have hlen := length_reason_lt (some p) (some (fillSnapshot p table))
  have hstr := cstr_safestrcpy (s := junk.toList) (n := 64) (by omega) (by simp)
    (verifyFix (some p) (some (fillSnapshot p table))).2.bytes
  simp only [sysVerifyfix]
  rw [if_pos (by omega), List.take_of_length_le (by simp), hstr, CString.cstr_bytes]
  exact List.take_of_length_le (by simp; omega)

end LiberalOS.Kernel
