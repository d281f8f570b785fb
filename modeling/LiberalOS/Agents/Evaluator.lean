import LiberalOS.Agents.Lines
import LiberalOS.Cache.Slot
import LiberalOS.Kernel.Checkpoint
import LiberalOS.Kernel.Verifier

/-!
# The evaluator

`user/evaluator.c`: for each line it forms a fix proposal, submits it to the verifier and, as long
as it is rejected, rolls back to the last accepted state and amends the proposal by the verdict. The
environment decides the replies of `proxy_call`, the process table at each `verifyfix` and which
checkpoints other processes store before each of the evaluator's own calls on the slot.

## Main results

* `evaluator_converges` — only accepted states are committed and restored, and every line ends in
  acceptance.
-/
namespace LiberalOS.Agents
open Foundation Proxy Kernel
open Cache (charField charField_toList)

/-! ## Proposals -/

theorem length_strcopy {t : List UInt8} (h : t.length < 16) (dst : List.Vector UInt8 16) :
    (t ++ 0 :: dst.toList.drop (t.length + 1)).length = 16 := by
  simp
  omega

theorem length_take_lt_16 (src : List UInt8) : (src.take 15).length < 16 := by
  rw [List.length_take]
  omega

/-- `strcopy` into a text field; the bytes behind the terminator stay. -/
def strcopy (dst : List.Vector UInt8 16) (src : List UInt8) : List.Vector UInt8 16 :=
  ⟨(cstr src).take 15 ++ 0 :: dst.toList.drop (((cstr src).take 15).length + 1),
    length_strcopy (length_take_lt_16 _) dst⟩

/-- A proposal after its `memset`. -/
def FixProposal.zero : FixProposal := ⟨.replicate _ 0, .replicate _ 0, 0, 0, 0⟩

def buildDefaultProposal : FixProposal where
  role := strcopy FixProposal.zero.role (CString.lit "fixsuggest").bytes
  target := strcopy FixProposal.zero.target (CString.lit "parser").bytes
  action := fixActionReport
  severity := 0
  retryHint := 0

def errorText : List UInt8 := (CString.lit "ERROR").bytes

/-- The text `ERROR` occurs in the response. -/
def qualityBad : List UInt8 → Bool
  | [] => false
  | c :: s => (c :: s).take 5 == errorText || qualityBad s

def buildProposal (resp : CString) : FixProposal where
  role := strcopy FixProposal.zero.role (CString.lit "fixsuggest").bytes
  target := strcopy FixProposal.zero.target (CString.lit "parser").bytes
  action := fixActionRequeue
  retryHint := 0
  severity := if qualityBad resp.bytes then 9 else 2

/-- Correct a rejected proposal by the verdict, from the last accepted state. -/
def amendFromVerdict (p base : FixProposal) : Verdict → FixProposal
  | .errRange =>
    let severity := if p.severity < fixSeverityMin then fixSeverityMin else p.severity
    let severity := if severity > fixSeverityMax then fixSeverityMax else severity
    { p with severity := severity, retryHint := if p.retryHint < 0 then 0 else p.retryHint }
  | .errAction => { p with action := fixActionRequeue }
  | .errProtected =>
    { p with action := fixActionReport, target := strcopy p.target base.target.toList }
  | .errField =>
    { p with
      role := strcopy p.role base.role.toList
      target := strcopy p.target base.target.toList }
  | .ok => base

/-! ## The bytes of a proposal -/

def intBytes (x : Int32) : List UInt8 := leBytes 4 x.toUInt32.toNat

def intField (off : Nat) (bs : List UInt8) : Int32 :=
  (UInt32.ofNat (leNat ((bs.drop off).take 4))).toInt32

/-- `struct fix_proposal` in memory: 44 bytes without padding. -/
def encodeProposal (p : FixProposal) : List UInt8 :=
  p.role.toList ++ (p.target.toList ++
    (intBytes p.action ++ (intBytes p.severity ++ intBytes p.retryHint)))

def decodeProposal (bs : List UInt8) : FixProposal where
  role := charField _ 0 bs
  target := charField _ 16 bs
  action := intField 32 bs
  severity := intField 36 bs
  retryHint := intField 40 bs

@[simp] theorem length_intBytes (x : Int32) : (intBytes x).length = 4 := length_leBytes _ _

@[simp] theorem length_encodeProposal (p : FixProposal) : (encodeProposal p).length = 44 := by
  simp [encodeProposal, fixRoleLen, fixTargetLen]

theorem intField_intBytes {before : List UInt8} (x : Int32) (after : List UInt8) {off : Nat}
    (h : before.length = off) : intField off (before ++ (intBytes x ++ after)) = x := by
  subst h
  have hx := x.toUInt32.toNat_lt
  rw [intField, List.drop_left, ← length_intBytes x, List.take_left, intBytes, leNat_leBytes,
    Nat.mod_eq_of_lt (by simpa using hx), UInt32.ofNat_toNat, Int32.toInt32_toUInt32]

theorem decodeProposal_encodeProposal (p : FixProposal) :
    decodeProposal (encodeProposal p) = p := by
  have hrole : charField 16 0 (encodeProposal p) = p.role :=
    @charField_toList 16 [] p.role _ 0 rfl
  have htarget : charField 16 16 (encodeProposal p) = p.target :=
    charField_toList p.target _ p.role.toList_length
  have haction : intField 32 (encodeProposal p) = p.action := by
    have := @intField_intBytes (p.role.toList ++ p.target.toList) p.action
      (intBytes p.severity ++ intBytes p.retryHint) 32 (by simp [fixRoleLen, fixTargetLen])
    simpa [encodeProposal] using this
  have hseverity : intField 36 (encodeProposal p) = p.severity := by
    have := @intField_intBytes (p.role.toList ++ (p.target.toList ++ intBytes p.action)) p.severity
      (intBytes p.retryHint) 36 (by simp [fixRoleLen, fixTargetLen])
    simpa [encodeProposal] using this
  have hretry : intField 40 (encodeProposal p) = p.retryHint := by
    have := @intField_intBytes (p.role.toList ++ (p.target.toList ++ (intBytes p.action ++
      intBytes p.severity))) p.retryHint [] 40 (by simp [fixRoleLen, fixTargetLen])
    simpa [encodeProposal] using this
  simp only [decodeProposal, hrole, htarget, haction, hseverity, hretry]

theorem length_encodeProposal_le (p : FixProposal) : (encodeProposal p).length ≤ ckptMax := by
  rw [length_encodeProposal]
  decide

/-- The argument of `checkpoint(&p, sizeof(p))`. -/
def proposalBlob (p : FixProposal) : Blob := ⟨encodeProposal p, length_encodeProposal_le p⟩

/-! ## The program -/

def maxRetries : Nat := 3

/-- What a successful `proxy_call` leaves in the caller's buffer of 256 bytes. -/
structure Response where
  text : CString
  fits : text.bytes.length ≤ 255

/-- The lines the evaluator writes. -/
inductive EvalTag where
  | verifyFail
  | rollback
  | retry
  | accept
  | ok
  | fail
  deriving DecidableEq

def EvalTag.text : EvalTag → CString
  | .verifyFail => .lit "EVAL_VERIFY_FAIL "
  | .rollback => .lit "EVAL_ROLLBACK "
  | .retry => .lit "EVAL_RETRY "
  | .accept => .lit "EVAL_ACCEPT "
  | .ok => .lit "evaluator:OK:"
  | .fail => .lit "evaluator:FAIL:"

/-- The surroundings of a run, by the number of the call they answer. Before each of the evaluator's
calls on the checkpoint slot other processes may have stored checkpoints of their own. -/
structure EvalEnv where
  pid : Nat
  reply : Nat → Option Response
  table : Nat → ProcTable
  junk : Nat → List.Vector UInt8 64
  others : Nat → List (Nat × Blob)
  others_ne : ∀ i, ∀ c ∈ others i, c.1 ≠ pid
  slot : CkptSlot
  prop : FixProposal

/-- The program's variables, the slot, and what has happened so far. Only the lengths of `calls`,
`verified` and `slotCalls` are read, to number the calls; `saved` and `restored` are read by no
step. -/
structure EvalState where
  base : FixProposal
  prop : FixProposal
  lastResp : CString
  slot : CkptSlot
  calls : List CString
  verified : Nat
  slotCalls : Nat
  out : List (EvalTag × CString)
  saved : List FixProposal
  restored : List FixProposal

namespace EvalState

variable (env : EvalEnv) (s : EvalState)

def emit (tag : EvalTag) (body : CString) : EvalState := { s with out := s.out ++ [(tag, body)] }

/-- The slot when the evaluator's next call reaches it. -/
def slotNow : CkptSlot :=
  (env.others s.slotCalls).foldl (fun slot c => slot.save c.1 c.2) s.slot

/-- `checkpoint(&p, sizeof(p))`. -/
def checkpoint (p : FixProposal) : EvalState :=
  { s with
    slot := (s.slotNow env).save env.pid (proposalBlob p)
    slotCalls := s.slotCalls + 1
    saved := s.saved ++ [p] }

/-- The proposal in `base` after `bytes` have been copied over its front. -/
def overwritten (bytes : List UInt8) : FixProposal :=
  decodeProposal (bytes ++ (encodeProposal s.base).drop bytes.length)

/-- `restore(&base, sizeof(base))`. -/
def restore : EvalState :=
  let base := s.overwritten ((s.slotNow env).load env.pid 44)
  { s with
    base := base
    slot := s.slotNow env
    slotCalls := s.slotCalls + 1
    restored := s.restored ++ [base] }

/-- After a call that has succeeded: `last_resp` and, on the first attempt, `prop` are set. -/
def answered (line : CString) (resp : Response) (first : Bool) : EvalState :=
  { s with
    calls := s.calls ++ [line]
    lastResp := .ofBytes (resp.text.bytes.take 255)
    prop := if first then buildProposal resp.text else s.prop }

/-- The verdict on `prop`, and the reason the evaluator has in its buffer. -/
def verdict : Verdict × CString :=
  let r := sysVerifyfix (env.table s.verified) (env.junk s.verified) s.prop 64
  (r.1, .ofBytes r.2)

def accept (line : CString) : EvalState :=
  ({ s with verified := s.verified + 1 }.checkpoint env s.prop).emit .accept line

/-- The reaction to a rejection. -/
def reject (rc : Verdict) (reason line : CString) : EvalState :=
  let s := { s with verified := s.verified + 1 }.emit .verifyFail reason
  let s := (s.restore env).emit .rollback line
  { s with prop := amendFromVerdict s.prop s.base rc }.emit .retry line

@[simp] theorem calls_answered (line : CString) (resp : Response) (first : Bool) :
    (s.answered line resp first).calls = s.calls ++ [line] := rfl

@[simp] theorem calls_reject (rc : Verdict) (reason line : CString) :
    (s.reject env rc reason line).calls = s.calls := rfl

end EvalState

/-- The attempts that are left for a line: whether one was accepted, `none` when a call fails. -/
def evalAttempts (env : EvalEnv) (line : CString) : Nat → EvalState → EvalState × Option Bool
  | 0, s => (s, some false)
  | left + 1, s =>
    match env.reply s.calls.length with
    | none => ({ s with calls := s.calls ++ [line] }, none)
    | some resp =>
      let s := s.answered line resp (left + 1 == maxRetries)
      let r := s.verdict env
      if r.1 = .ok then (s.accept env line, some true)
      else evalAttempts env line left (s.reject env r.1 r.2 line)

/-- What the evaluator does with a line, and whether its calls have succeeded. -/
def evalLine (env : EvalEnv) (s : EvalState) (line : CString) : EvalState × Bool :=
  match evalAttempts env line maxRetries { s with lastResp := .lit "" } with
  | (s, none) => (s, false)
  | (s, some true) => (s.emit .ok s.lastResp, true)
  | (s, some false) => (s.emit .fail line, true)

/-- Before the loop: the baseline is seeded into the slot. -/
def evalStart (env : EvalEnv) : EvalState :=
  EvalState.checkpoint env
    { base := buildDefaultProposal, prop := env.prop, lastResp := .lit "", slot := env.slot,
      calls := [], verified := 0, slotCalls := 0, out := [], saved := [], restored := [] }
    buildDefaultProposal

def evaluator (env : EvalEnv) (input : List UInt8) : LoopEnd EvalState :=
  lineLoop (evalLine env) (input.length + 1) (evalStart env) input

/-- The bytes the evaluator has written when it exits. -/
def evaluatorOutput (env : EvalEnv) (input : List UInt8) : List UInt8 :=
  ((evaluator env input).state.out.flatMap fun o => Agents.emit o.1.text o.2) ++
    (CString.lit "TRIAGE_DONE").bytes ++ [newline]

/-! ## Accepted proposals -/

/-- The verifier accepts the proposal, whatever it knows about the target. -/
def Accepted (p : FixProposal) : Prop := ∀ snap, (verifyFix (some p) snap).1 = .ok

theorem accepted_iff (p : FixProposal) : Accepted p ↔
    fieldOk p.role.toList fixRoleLen = true ∧ fieldOk p.target.toList fixTargetLen = true ∧
      (fixSeverityMin ≤ p.severity ∧ p.severity ≤ fixSeverityMax) ∧ 0 ≤ p.retryHint ∧
      isAllowed p.action = true :=
  ⟨fun h => (verifyFix_ok_iff p none).mp (h none), fun h snap => (verifyFix_ok_iff p snap).mpr h⟩

theorem accepted_buildDefaultProposal : Accepted buildDefaultProposal := by
  rw [accepted_iff]
  decide

theorem qualityBad_iff (s : List UInt8) : qualityBad s = true ↔ errorText <:+: s := by
  induction s with
  | nil => decide
  | cons c s ih =>
    have hfront : (c :: s).take 5 = errorText ↔ errorText <+: c :: s := by
      rw [List.prefix_iff_eq_take]
      exact eq_comm
    rw [qualityBad, Bool.or_eq_true, beq_iff_eq, hfront, ih, List.infix_cons_iff]

theorem accepted_buildProposal {resp : CString} (h : qualityBad resp.bytes = false) :
    Accepted (buildProposal resp) := by
  rw [accepted_iff]
  simp only [buildProposal, h]
  decide

/-- The first proposal for a flagged response is rejected for its severity. -/
theorem verifyFix_buildProposal {resp : CString} (h : qualityBad resp.bytes = true)
    (snap : Option SysSnapshot) : verifyFix (some (buildProposal resp)) snap =
      (.errRange, .lit "severity out of range [0,3]") := by
  have hrole : fieldOk (buildProposal resp).role.toList fixRoleLen = true := by
    simp only [buildProposal]
    decide
  have htarget : fieldOk (buildProposal resp).target.toList fixTargetLen = true := by
    simp only [buildProposal]
    decide
  have hsev : (buildProposal resp).severity > fixSeverityMax := by
    simp only [buildProposal, h]
    decide
  simp [verifyFix, hrole, htarget, hsev]

/-- The correction by that verdict is accepted. -/
theorem accepted_amendFromVerdict {resp : CString} (h : qualityBad resp.bytes = true)
    (base : FixProposal) : Accepted (amendFromVerdict (buildProposal resp) base .errRange) := by
  rw [accepted_iff]
  simp only [amendFromVerdict, buildProposal, h]
  decide

/-! ## One call -/

/-- Every state the evaluator may fall back to is an accepted one. -/
structure EvalInv (env : EvalEnv) (s : EvalState) : Prop where
  base : Accepted s.base
  slot : s.slot.owner = env.pid → ∃ p, Accepted p ∧ s.slot.content = encodeProposal p
  saved : ∀ p ∈ s.saved, Accepted p
  restored : ∀ p ∈ s.restored, Accepted p

/-- A slot that is still the evaluator's own has not been touched. -/
theorem slotNow_eq {env : EvalEnv} {s : EvalState} (h : (s.slotNow env).owner = env.pid) :
    s.slotNow env = s.slot := by
  unfold EvalState.slotNow at *
  have hne := env.others_ne s.slotCalls
  generalize env.others s.slotCalls = cs at *
  induction cs using List.reverseRecOn with
  | nil => rfl
  | append_singleton cs c =>
    rw [List.foldl_append] at h
    exact absurd h (hne c (by simp))

theorem EvalInv.emit {env : EvalEnv} {s : EvalState} (h : EvalInv env s) (tag : EvalTag)
    (body : CString) : EvalInv env (s.emit tag body) := ⟨h.base, h.slot, h.saved, h.restored⟩

theorem EvalInv.checkpoint {env : EvalEnv} {s : EvalState} (h : EvalInv env s) {p : FixProposal}
    (hp : Accepted p) : EvalInv env (s.checkpoint env p) where
  base := h.base
  slot _ := ⟨p, hp, CkptSlot.content_save _ _ _⟩
  saved q hq := by
    rcases List.mem_append.mp hq with hq | hq
    · exact h.saved q hq
    · rw [List.mem_singleton.mp hq]
      exact hp
  restored := h.restored

/-- A restore brings back an accepted state, or leaves the one that is there. -/
theorem EvalInv.accepted_overwritten {env : EvalEnv} {s : EvalState} (h : EvalInv env s) :
    Accepted (s.overwritten ((s.slotNow env).load env.pid 44)) := by
  rw [CkptSlot.load_eq]
  split
  next howner =>
    have hsame := slotNow_eq howner
    rw [hsame] at howner ⊢
    obtain ⟨p, hp, hcontent⟩ := h.slot howner
    rw [hcontent, List.take_of_length_le (by simp), EvalState.overwritten,
      List.drop_eq_nil_of_le (by simp), List.append_nil, decodeProposal_encodeProposal]
    exact hp
  next => simpa [EvalState.overwritten, decodeProposal_encodeProposal] using h.base

theorem EvalInv.restore {env : EvalEnv} {s : EvalState} (h : EvalInv env s) :
    EvalInv env (s.restore env) where
  base := h.accepted_overwritten
  slot howner := by
    have hsame : s.slotNow env = s.slot := slotNow_eq howner
    have howner' : s.slot.owner = env.pid := hsame ▸ howner
    obtain ⟨p, hp, hcontent⟩ := h.slot howner'
    exact ⟨p, hp, (congrArg CkptSlot.content hsame).trans hcontent⟩
  saved := h.saved
  restored q hq := by
    rcases List.mem_append.mp hq with hq | hq
    · exact h.restored q hq
    · rw [List.mem_singleton.mp hq]
      exact h.accepted_overwritten

theorem EvalInv.answered {env : EvalEnv} {s : EvalState} (h : EvalInv env s) (line : CString)
    (resp : Response) (first : Bool) : EvalInv env (s.answered line resp first) :=
  ⟨h.base, h.slot, h.saved, h.restored⟩

/-- The evaluator sees the verdict and the reason of the verifier. -/
theorem verdict_eq (env : EvalEnv) (s : EvalState) : ∃ snap,
    s.verdict env = verifyFix (some s.prop) snap :=
  ⟨_, Prod.ext rfl (CString.ext (cstr_sysVerifyfix _ _ _))⟩

theorem EvalInv.accept {env : EvalEnv} {s : EvalState} (h : EvalInv env s) (hp : Accepted s.prop)
    (line : CString) : EvalInv env (s.accept env line) :=
  (EvalInv.checkpoint (s := { s with verified := s.verified + 1 })
    ⟨h.base, h.slot, h.saved, h.restored⟩ hp).emit _ _

theorem EvalInv.reject {env : EvalEnv} {s : EvalState} (h : EvalInv env s) (rc : Verdict)
    (reason line : CString) : EvalInv env (s.reject env rc reason line) := by
  have hfail : EvalInv env ({ s with verified := s.verified + 1 }.emit .verifyFail reason) :=
    ⟨h.base, h.slot, h.saved, h.restored⟩
  have hback := hfail.restore
  exact ⟨hback.base, hback.slot, hback.saved, hback.restored⟩

/-! ## One line -/

/-- A line with the response to its first call and the one to its last. -/
structure Exchange where
  line : CString
  first : CString
  last : CString

/-- The first response contains the text `ERROR`. -/
def Exchange.Flagged (x : Exchange) : Prop := errorText <:+: x.first.bytes

instance (x : Exchange) : Decidable x.Flagged := decidable_of_iff _ (qualityBad_iff x.first.bytes)

/-- The prompts of the calls made for the line. -/
def Exchange.calls (x : Exchange) : List CString :=
  if x.Flagged then [x.line, x.line] else [x.line]

/-- The lines written for the line. -/
def Exchange.report (x : Exchange) : List (EvalTag × CString) :=
  if x.Flagged then
    [(.verifyFail, .lit "severity out of range [0,3]"), (.rollback, x.line), (.retry, x.line),
      (.accept, x.line), (.ok, x.last)]
  else [(.accept, x.line), (.ok, x.last)]

variable (resp : Nat → Response)

/-- The exchange for a line whose first call is the `i`-th. -/
def exchangeAt (i : Nat) (line : CString) : Exchange where
  line := line
  first := (resp i).text
  last := if qualityBad (resp i).text.bytes then (resp (i + 1)).text else (resp i).text

/-- The exchanges for a list of lines. -/
def exchanges : Nat → List CString → List Exchange
  | _, [] => []
  | i, line :: lines =>
    let x := exchangeAt resp i line
    x :: exchanges (i + x.calls.length) lines

theorem flagged_exchangeAt (i : Nat) (line : CString) :
    (exchangeAt resp i line).Flagged ↔ qualityBad (resp i).text.bytes = true :=
  (qualityBad_iff _).symm

theorem calls_exchangeAt (i : Nat) (line : CString) : (exchangeAt resp i line).calls =
    if qualityBad (resp i).text.bytes then [line, line] else [line] := by
  rw [Exchange.calls]
  simp only [flagged_exchangeAt]
  rfl

theorem report_exchangeAt (i : Nat) (line : CString) : (exchangeAt resp i line).report =
    if qualityBad (resp i).text.bytes then
      [(.verifyFail, .lit "severity out of range [0,3]"), (.rollback, line), (.retry, line),
        (.accept, line), (.ok, (resp (i + 1)).text)]
    else [(.accept, line), (.ok, (resp i).text)] := by
  rw [Exchange.report]
  simp only [flagged_exchangeAt]
  by_cases h : qualityBad (resp i).text.bytes = true <;> simp [h, exchangeAt]

theorem copied_response (r : Response) : CString.ofBytes (r.text.bytes.take 255) = r.text := by
  rw [List.take_of_length_le r.fits]
  exact CString.ext (CString.cstr_bytes r.text)

section
variable {resp} {env : EvalEnv} (hreply : ∀ i, env.reply i = some (resp i))
include hreply

/-- An attempt with an accepted proposal is the last one. -/
theorem evalAttempts_of_accepted {s : EvalState} {left : Nat} {line : CString} {first : Bool}
    (hfirst : (left + 1 == maxRetries) = first)
    (h : Accepted (s.answered line (resp s.calls.length) first).prop) :
    evalAttempts env line (left + 1) s =
      ((s.answered line (resp s.calls.length) first).accept env line, some true) := by
  obtain ⟨snap, hverdict⟩ := verdict_eq env (s.answered line (resp s.calls.length) first)
  have hok : ((s.answered line (resp s.calls.length) first).verdict env).1 = .ok := by
    rw [hverdict]
    exact h snap
  simp only [evalAttempts, hreply, hfirst]
  rw [if_pos hok]

/-- The first attempt for a flagged response is rejected for its severity. -/
theorem evalAttempts_of_flagged {s : EvalState} {line : CString}
    (h : qualityBad (resp s.calls.length).text.bytes = true) :
    evalAttempts env line maxRetries s =
      evalAttempts env line 2 ((s.answered line (resp s.calls.length) true).reject env .errRange
        (.lit "severity out of range [0,3]") line) := by
  obtain ⟨snap, hverdict⟩ := verdict_eq env (s.answered line (resp s.calls.length) true)
  have hrange : (s.answered line (resp s.calls.length) true).verdict env =
      (.errRange, .lit "severity out of range [0,3]") :=
    hverdict.trans (verifyFix_buildProposal h snap)
  have hunfold : evalAttempts env line maxRetries s =
      if ((s.answered line (resp s.calls.length) true).verdict env).1 = .ok then
        ((s.answered line (resp s.calls.length) true).accept env line, some true)
      else evalAttempts env line 2 ((s.answered line (resp s.calls.length) true).reject env
        ((s.answered line (resp s.calls.length) true).verdict env).1
        ((s.answered line (resp s.calls.length) true).verdict env).2 line) := by
    rw [maxRetries, evalAttempts, hreply]
    rfl
  rw [hunfold, hrange, if_neg (by decide)]

theorem evalLine_of_unflagged {s : EvalState} (line : CString)
    (h : qualityBad (resp s.calls.length).text.bytes = false) :
    evalLine env s line = (((s.answered line (resp s.calls.length) true).accept env line).emit .ok
      (resp s.calls.length).text, true) := by
  let s₀ := { s with lastResp := .lit "" }
  have hprop : Accepted (s₀.answered line (resp s.calls.length) true).prop :=
    accepted_buildProposal h
  have hlast : ((s₀.answered line (resp s.calls.length) true).accept env line).lastResp =
      (resp s.calls.length).text := copied_response _
  have hattempt : evalAttempts env line maxRetries s₀ =
      ((s₀.answered line (resp s.calls.length) true).accept env line, some true) :=
    evalAttempts_of_accepted hreply rfl hprop
  rw [evalLine, hattempt]
  dsimp only
  rw [hlast]
  rfl

/-- The state in which the second attempt for a flagged line starts. -/
theorem evalLine_of_flagged {s : EvalState} (line : CString)
    (h : qualityBad (resp s.calls.length).text.bytes = true) :
    evalLine env s line =
      (((((s.answered line (resp s.calls.length) true).reject env .errRange
        (.lit "severity out of range [0,3]") line).answered line (resp (s.calls.length + 1))
        false).accept env line).emit .ok (resp (s.calls.length + 1)).text, true) := by
  let s₀ := { s with lastResp := .lit "" }
  let s₁ := (s₀.answered line (resp s.calls.length) true).reject env .errRange
    (.lit "severity out of range [0,3]") line
  have hcalls : s₁.calls.length = s.calls.length + 1 := List.length_append
  have hprop : Accepted (s₁.answered line (resp s₁.calls.length) false).prop :=
    accepted_amendFromVerdict h ((s₀.restore env).base)
  have hlast : ((s₁.answered line (resp s₁.calls.length) false).accept env line).lastResp =
      (resp (s.calls.length + 1)).text := by
    rw [← hcalls]
    exact copied_response _
  have hattempt : evalAttempts env line 2 s₁ =
      ((s₁.answered line (resp s₁.calls.length) false).accept env line, some true) :=
    evalAttempts_of_accepted hreply rfl hprop
  have hfirst : evalAttempts env line maxRetries s₀ = evalAttempts env line 2 s₁ :=
    evalAttempts_of_flagged hreply h
  rw [evalLine, hfirst, hattempt]
  dsimp only
  rw [hlast, hcalls]
  rfl

/-- What a line does to a state: an accepted state is committed, and the line is reported as its
first response tells. -/
theorem evalLine_spec {s : EvalState} (hinv : EvalInv env s) (line : CString) :
    EvalInv env (evalLine env s line).1 ∧ (evalLine env s line).2 = true ∧
      (evalLine env s line).1.calls = s.calls ++ (exchangeAt resp s.calls.length line).calls ∧
      (evalLine env s line).1.out = s.out ++ (exchangeAt resp s.calls.length line).report := by
  rw [calls_exchangeAt, report_exchangeAt]
  cases hbad : qualityBad (resp s.calls.length).text.bytes with
  | false =>
    have hprop : Accepted (s.answered line (resp s.calls.length) true).prop :=
      accepted_buildProposal hbad
    rw [evalLine_of_unflagged hreply line hbad]
    refine ⟨((hinv.answered _ _ _).accept hprop line).emit _ _, rfl, rfl, ?_⟩
    simp [EvalState.emit, EvalState.accept, EvalState.checkpoint, EvalState.answered]
  | true =>
    rw [evalLine_of_flagged hreply line hbad]
    have hback := ((hinv.answered line (resp s.calls.length) true).reject .errRange
      (.lit "severity out of range [0,3]") line).answered line (resp (s.calls.length + 1)) false
    refine ⟨(hback.accept (accepted_amendFromVerdict hbad (s.restore env).base) line).emit _ _,
      rfl, ?_, ?_⟩
    · simp [EvalState.emit, EvalState.accept, EvalState.checkpoint, EvalState.answered,
        EvalState.reject, EvalState.restore]
    · simp [EvalState.emit, EvalState.accept, EvalState.checkpoint, EvalState.answered,
        EvalState.reject, EvalState.restore]

/-! ## Whole runs -/

theorem runLines_evalLine {s : EvalState} (hinv : EvalInv env s) (lines : List CString) :
    EvalInv env (runLines (evalLine env) s lines).1 ∧
      (runLines (evalLine env) s lines).2 = false ∧
      (runLines (evalLine env) s lines).1.calls =
        s.calls ++ (exchanges resp s.calls.length lines).flatMap Exchange.calls ∧
      (runLines (evalLine env) s lines).1.out =
        s.out ++ (exchanges resp s.calls.length lines).flatMap Exchange.report := by
  induction lines generalizing s with
  | nil => exact ⟨hinv, rfl, by simp [runLines, exchanges], by simp [runLines, exchanges]⟩
  | cons line lines ih =>
    obtain ⟨hnext, hgo, hcalls, hout⟩ := evalLine_spec hreply hinv line
    have hrun := ih hnext
    rw [hcalls, hout, List.length_append] at hrun
    rw [runLines]
    simp only [hgo, if_true, exchanges, List.flatMap_cons, ← List.append_assoc]
    exact hrun

end

theorem fail_not_mem_report (x : Exchange) : ∀ o ∈ x.report, o.1 ≠ .fail := by
  unfold Exchange.report
  split <;> simp

theorem countP_retry_report (x : Exchange) :
    x.report.countP (fun o => o.1 = .retry) = if x.Flagged then 1 else 0 := by
  unfold Exchange.report
  split <;> simp

theorem countP_retry_flatMap (xs : List Exchange) :
    (xs.flatMap Exchange.report).countP (fun o => o.1 = .retry) =
      xs.countP fun x => x.Flagged := by
  induction xs with
  | nil => rfl
  | cons x xs ih =>
    rw [List.flatMap_cons, List.countP_append, countP_retry_report, ih, List.countP_cons]
    by_cases h : x.Flagged <;> simp [h, Nat.add_comm]

/-- The slot holds the baseline before the first line, whatever was in it. -/
theorem evalInv_evalStart (env : EvalEnv) : EvalInv env (evalStart env) where
  base := accepted_buildDefaultProposal
  slot _ := ⟨_, accepted_buildDefaultProposal, CkptSlot.content_save _ _ _⟩
  saved p hp := by
    rw [List.mem_singleton.mp hp]
    exact accepted_buildDefaultProposal
  restored := by simp [evalStart, EvalState.checkpoint]

/-- However other processes use the slot and the table: the evaluator commits and falls back to
accepted states only, a line with a flagged response takes one retry, every other line none, and
each line ends in acceptance. -/
theorem evaluator_converges (env : EvalEnv) (hreply : ∀ i, env.reply i = some (resp i))
    (input : List UInt8) :
    let s := (evaluator env input).state
    let xs := exchanges resp 0 (leadingLines input)
    (∀ p ∈ s.saved, Accepted p) ∧ (∀ p ∈ s.restored, Accepted p) ∧
      s.calls = xs.flatMap Exchange.calls ∧ s.out = xs.flatMap Exchange.report ∧
      (∀ o ∈ s.out, o.1 ≠ .fail) ∧
      s.out.countP (fun o => o.1 = .retry) = xs.countP (fun x => x.Flagged) := by
  obtain ⟨hinv, -, hcalls, hout⟩ :=
    runLines_evalLine hreply (evalInv_evalStart env) (leadingLines input)
  have hstate := (lineLoop_eq (evalLine env) (Nat.lt_succ_self input.length) (evalStart env)).1
  rw [← hstate] at hinv hcalls hout
  have hout' : (evaluator env input).state.out =
      (exchanges resp 0 (leadingLines input)).flatMap Exchange.report := hout
  refine ⟨hinv.saved, hinv.restored, hcalls, hout, ?_, ?_⟩
  · intro o ho
    rw [hout'] at ho
    obtain ⟨x, -, hx⟩ := List.mem_flatMap.mp ho
    exact fail_not_mem_report x o hx
  · rw [hout']
    exact countP_retry_flatMap _

theorem length_error7 : (CString.lit "ERROR 7").bytes.length ≤ 255 := by decide

theorem length_fixed : (CString.lit "fixed").bytes.length ≤ 255 := by decide

/-- The first response is flagged, the later ones are not. -/
def flaggedFirst : Nat → Response
  | 0 => ⟨.lit "ERROR 7", length_error7⟩
  | _ + 1 => ⟨.lit "fixed", length_fixed⟩

theorem length_singleton_le (b : UInt8) : [b].length ≤ ckptMax := by simp

def byteBlob (b : UInt8) : Blob := ⟨[b], length_singleton_le b⟩

theorem others_ne_four (i : Nat) : ∀ c ∈ [((1 : Nat), byteBlob i.toUInt8)], c.1 ≠ 4 := by
  simp

/-- Process 1 stores a checkpoint before each call of process 4 on the slot. -/
def contendedSlot : EvalEnv where
  pid := 4
  reply i := some (flaggedFirst i)
  table _ := .replicate _ ⟨.unused, 0, .replicate _ 0, .replicate _ 0⟩
  junk _ := .replicate _ 0
  others i := [(1, byteBlob i.toUInt8)]
  others_ne := others_ne_four
  slot := .init
  prop := buildDefaultProposal

theorem contendedSlot_converges :
    (evaluator contendedSlot [97, 10, 98, 10]).state.out =
        [(.verifyFail, .lit "severity out of range [0,3]"), (.rollback, .lit "a"),
          (.retry, .lit "a"), (.accept, .lit "a"), (.ok, .lit "fixed"), (.accept, .lit "b"),
          (.ok, .lit "fixed")] ∧
      ∀ p ∈ (evaluator contendedSlot [97, 10, 98, 10]).state.restored, Accepted p := by
  obtain ⟨-, hrestored, -, hout, -, -⟩ :=
    evaluator_converges flaggedFirst contendedSlot (fun _ => rfl) [97, 10, 98, 10]
  exact ⟨hout.trans (by decide), hrestored⟩

end LiberalOS.Agents
