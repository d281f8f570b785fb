import LiberalOS.Foundation.Occurrence
import LiberalOS.Host.Daemon

/-!
# A run of the self-test

`_drive_proxytest` of `host/proxy_daemon.py`. It answers requests as the triage run does and stops
at the verdict of the guest.

## Main results

* `driveProxytest_flatten`, `driveProxytest_sent` — what is sent, by the complete lines.
-/
namespace LiberalOS.Host
open Foundation Proxy

structure ProxytestState extends Answering where
  served : ℕ

/-- What is returned: at the guest's verdict, or after the deadline. -/
inductive ProxytestResult where
  | ok (served : ℕ)
  | diff (served : ℕ) (lastError : Option AnswerError)
  | fail (served : ℕ) (reason : List Char) (lastError : Option AnswerError)
  | timeout (served : ℕ) (lastError : Option AnswerError)

def proxytestCommand (role prompt : List Char) : List Char :=
  "proxytest ".toList ++ role ++ ' ' :: (prompt ++ ['\n'])

def ProxytestState.init (role prompt : List Char) : ProxytestState where
  sent := [utf8Encode (proxytestCommand role prompt)]
  calls := 0
  lastError := none
  served := 0

/-- `token in text` -/
def occursIn (token text : List Char) : Bool := (cutAfter token text).isSome

/-- A complete line. -/
def proxytestLine (handler : Handler) (s : ProxytestState) (line : List UInt8) :
    ProxytestState ⊕ ProxytestState × ProxytestResult :=
  let text := decodeReplace line
  if (reqTagText ++ ['\t']).isPrefixOf text then
    match hostFrame text with
    | some req =>
      .inl {
        toAnswering := s.serve handler req
        served := if s.toAnswering.served handler req then s.served + 1 else s.served }
    | none => .inl s
  else if occursIn "PROXY_TEST_OK".toList text then .inr (s, .ok s.served)
  else if occursIn "PROXY_TEST_DIFF".toList text then .inr (s, .diff s.served s.lastError)
  else if occursIn "PROXY_TEST_FAIL".toList text then .inr (s, .fail s.served text s.lastError)
  else .inl s

/-- A run: what is sent, and the result. -/
def driveProxytest (handler : Handler) (role prompt : List Char) (chunks : List (List UInt8)) :
    List (List UInt8) × ProxytestResult :=
  match readChunks newline (proxytestLine handler) (.init role prompt) [] chunks with
  | .inl (s, _) => (s.sent, .timeout s.served s.lastError)
  | .inr (s, result) => (s.sent, result)

/-- A verdict of the guest. -/
def isVerdict (line : List UInt8) : Bool :=
  let text := decodeReplace line
  !(reqTagText ++ ['\t']).isPrefixOf text &&
    (occursIn "PROXY_TEST_OK".toList text || occursIn "PROXY_TEST_DIFF".toList text ||
      occursIn "PROXY_TEST_FAIL".toList text)

/-- A verdict ends the run; any other line is answered if it is a request. -/
theorem proxytestLine_cases (handler : Handler) (s : ProxytestState) (line : List UInt8) :
    (isVerdict line = true ∧ ∃ result, proxytestLine handler s line = .inr (s, result)) ∨
    (isVerdict line = false ∧ ∃ s', proxytestLine handler s line = .inl s' ∧
      s'.toAnswering = answerLine handler s.toAnswering line) := by
  by_cases hreq : (reqTagText ++ ['\t']).isPrefixOf (decodeReplace line) = true
  · refine Or.inr ⟨by simp [isVerdict, hreq], ?_⟩
    rw [proxytestLine, if_pos hreq, answerLine]
    cases hostFrame (decodeReplace line) <;> exact ⟨_, rfl, rfl⟩
  · have hquiet : answerLine handler s.toAnswering line = s.toAnswering := by
      rw [answerLine, hostFrame, if_neg hreq]
    rw [proxytestLine, if_neg hreq, hquiet, isVerdict]
    simp only [hreq]
    split_ifs <;> simp_all

section

variable (handler : Handler) (role prompt : List Char) (chunks : List (List UInt8))

theorem driveProxytest_eq :
    driveProxytest handler role prompt chunks =
      match handleLines (proxytestLine handler) (.init role prompt)
          (completeLines newline chunks.flatten) with
      | .inl s => (s.sent, .timeout s.served s.lastError)
      | .inr (s, result) => (s.sent, result) := by
  rw [driveProxytest, readChunks_eq]
  cases handleLines (proxytestLine handler) (.init role prompt)
    (completeLines newline chunks.flatten) <;> rfl

/-- How the stream is cut into reads makes no difference. -/
theorem driveProxytest_flatten : driveProxytest handler role prompt chunks =
    driveProxytest handler role prompt [chunks.flatten] := by
  simp [driveProxytest_eq]

/-- The command, and one frame for each request before the verdict, in order. -/
theorem driveProxytest_sent :
    (driveProxytest handler role prompt chunks).1 =
      utf8Encode (proxytestCommand role prompt) ::
        frames handler 0 (((completeLines newline chunks.flatten).takeWhile
          fun line => !isVerdict line).filterMap parseRequest) := by
  have hproj : Sum.elim ProxytestState.toAnswering (fun r => r.1.toAnswering)
      (handleLines (proxytestLine handler) (.init role prompt)
        (completeLines newline chunks.flatten)) =
      ((completeLines newline chunks.flatten).takeWhile fun line => !isVerdict line).foldl
        (answerLine handler) (ProxytestState.init role prompt).toAnswering := by
    apply handleLines_proj
    · intro s line s' h
      grind [proxytestLine_cases handler s line]
    · intro s line r h
      grind [proxytestLine_cases handler s line]
  have hsent := congrArg Answering.sent hproj
  rw [foldl_answerLine] at hsent
  rw [driveProxytest_eq]
  cases h : handleLines (proxytestLine handler) (.init role prompt)
    (completeLines newline chunks.flatten) <;> rw [h] at hsent <;> exact hsent

end

end LiberalOS.Host
