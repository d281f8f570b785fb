import LiberalOS.Host.Daemon
import Mathlib.Data.List.Sort
import Mathlib.Data.List.DropRight
import Mathlib.Data.String.Basic

/-!
# A run of the triage pipeline

`_drive_triage` of `host/proxy_daemon.py`, with what it sends and what it reports. The reads up to
the deadline are the chunks, an empty one standing for a read that would block; `HANDLERS[mode]` is
a parameter, and so is what it does at each call.

## Main results

* `parseRequest_eq_some_iff`, `parseRequest_isSome_iff` — the lines that are requests.
* `driveTriage_sent`, `driveTriage_report` — what is sent and counted, by the complete lines.
* `triage_answers_iff` — the streams whose requests are all answered under their own id.
-/
namespace LiberalOS.Host
open Foundation Proxy Kernel

/-! ## The pipeline -/

structure TriageArgs where
  mode : List Char
  inputFile : List Char
  topology : List Char

def seqCommand (inputFile : List Char) : List Char :=
  "parser<".toList ++ inputFile ++
    ">1;classifier<1>2;rootcause<2>3;fixsuggest<3>4;evaluator<4\n".toList

/-- The command that starts the pipeline. -/
def triageCommand (args : TriageArgs) : List Char :=
  if args.topology = "sequential".toList then seqCommand args.inputFile
  else "triage ".toList ++ args.inputFile ++ ['\n']

/-- The variables of the loop. A dictionary keeps its keys in the order of insertion. -/
structure TriageState extends Answering where
  servedByRole : List (List Char × ℕ)
  evaluatorOutputs : List (List Char)
  evalRetries : ℕ
  evalFails : ℕ
  evalOks : ℕ
  retryContext : List (List Char)
  injectedPrompts : List (List Char)

def TriageState.init (args : TriageArgs) : TriageState where
  sent := [utf8Encode (triageCommand args)]
  calls := 0
  lastError := none
  servedByRole := []
  evaluatorOutputs := []
  evalRetries := 0
  evalFails := 0
  evalOks := 0
  retryContext := []
  injectedPrompts := []

/-- `served_by_role[role] = served_by_role.get(role, 0) + 1` -/
def countServed (role : List Char) : List (List Char × ℕ) → List (List Char × ℕ)
  | [] => [(role, 1)]
  | (r, n) :: served => if r = role then (r, n + 1) :: served else (r, n) :: countServed role served

/-- `str.isspace` of a character. -/
def pyIsSpace (c : Char) : Bool :=
  (9 ≤ c.toNat && c.toNat ≤ 13) || (28 ≤ c.toNat && c.toNat ≤ 32) || c.toNat == 0x85 ||
    c.toNat == 0xA0 || c.toNat == 0x1680 || (0x2000 ≤ c.toNat && c.toNat ≤ 0x200A) ||
    c.toNat == 0x2028 || c.toNat == 0x2029 || c.toNat == 0x202F || c.toNat == 0x205F ||
    c.toNat == 0x3000

/-- `str.strip` -/
def pyStrip (text : List Char) : List Char := (text.dropWhile pyIsSpace).rdropWhile pyIsSpace

/-- The prompt that a retry would carry. -/
def effPrompt (prompt : List Char) (retryContext : List (List Char)) : List Char :=
  prompt ++ " |retry_context: ".toList ++ "; ".toList.intercalate retryContext

/-- A PROXY_REQ line with its fields. -/
def TriageState.request (handler : Handler) (s : TriageState) (req : HostRequest) : TriageState :=
  { s with
    toAnswering := s.serve handler req
    servedByRole :=
      if s.served handler req then countServed req.role s.servedByRole else s.servedByRole
    injectedPrompts :=
      if req.role = "evaluator".toList ∧ s.retryContext ≠ [] then
        s.injectedPrompts ++ [effPrompt req.prompt s.retryContext]
      else s.injectedPrompts }

def evalVerifyFail : List Char := "EVAL_VERIFY_FAIL".toList
def evalRetry : List Char := "EVAL_RETRY".toList
def evaluatorFail : List Char := "evaluator:FAIL:".toList
def evaluatorOk : List Char := "evaluator:OK:".toList
def triageDone : List Char := "TRIAGE_DONE".toList

/-- A reason of the kernel's verifier. -/
def TriageState.verifyFail (s : TriageState) (reason : List Char) : TriageState :=
  if reason ≠ [] then { s with retryContext := s.retryContext ++ [reason] } else s

def TriageState.output (s : TriageState) (text : List Char) : TriageState :=
  { s with evaluatorOutputs := s.evaluatorOutputs ++ [text] }

/-- A complete line. -/
def triageLine (handler : Handler) (s : TriageState) (line : List UInt8) :
    TriageState ⊕ TriageState :=
  let text := decodeReplace line
  if (reqTagText ++ ['\t']).isPrefixOf text then
    match hostFrame text with
    | some req => .inl (s.request handler req)
    | none => .inl s
  else if evalVerifyFail.isPrefixOf text then
    .inl (s.verifyFail (pyStrip (text.drop evalVerifyFail.length)))
  else if evalRetry.isPrefixOf text then .inl { s with evalRetries := s.evalRetries + 1 }
  else if evaluatorFail.isPrefixOf text then
    .inl ({ s with evalFails := s.evalFails + 1 }.output text)
  else if evaluatorOk.isPrefixOf text then .inl ({ s with evalOks := s.evalOks + 1 }.output text)
  else if "evaluator:".toList.isPrefixOf text then .inl (s.output text)
  else if text = triageDone then .inr s
  else .inl s

def expectedRoles : List (List Char) :=
  ["classifier".toList, "evaluator".toList, "fixsuggest".toList, "parser".toList,
    "rootcause".toList]

/-- What is returned at `TRIAGE_DONE`. -/
structure TriageReport where
  ok : Bool
  args : TriageArgs
  served : List (List Char × ℕ)
  evaluatorLines : ℕ
  evaluatorSample : List (List Char)
  evalRetries : ℕ
  evalFails : ℕ
  evalOks : ℕ
  retryInjections : ℕ
  retryContext : List (List Char)
  injectedSample : List (List Char)
  missingRoles : List (List Char)

def TriageState.report (args : TriageArgs) (s : TriageState) : TriageReport where
  ok := (s.servedByRole.map Prod.fst).insertionSort (· ≤ ·) = expectedRoles ∧
    s.evaluatorOutputs.length > 0
  args := args
  served := s.servedByRole
  evaluatorLines := s.evaluatorOutputs.length
  evaluatorSample := s.evaluatorOutputs.take 3
  evalRetries := s.evalRetries
  evalFails := s.evalFails
  evalOks := s.evalOks
  retryInjections := s.injectedPrompts.length
  retryContext := s.retryContext.take 4
  injectedSample := s.injectedPrompts.take 2
  missingRoles := expectedRoles.filter fun r => r ∉ s.servedByRole.map Prod.fst

/-- What is returned after the deadline. -/
structure TriageTimeout where
  args : TriageArgs
  served : List (List Char × ℕ)
  evaluatorLines : ℕ
  lastError : Option AnswerError

def TriageState.timeout (args : TriageArgs) (s : TriageState) : TriageTimeout :=
  ⟨args, s.servedByRole, s.evaluatorOutputs.length, s.lastError⟩

/-- A run: what is sent, and the result. -/
def driveTriage (handler : Handler) (args : TriageArgs) (chunks : List (List UInt8)) :
    List (List UInt8) × (TriageTimeout ⊕ TriageReport) :=
  match readChunks newline (triageLine handler) (TriageState.init args) [] chunks with
  | .inl (s, _) => (s.sent, .inl (s.timeout args))
  | .inr s => (s.sent, .inr (s.report args))

/-! ## Requests -/

theorem splitTab_eq_some_iff {bs as cs : List UInt8} :
    splitTab bs = some (as, cs) ↔ bs = as ++ tab :: cs ∧ tab ∉ as := by
  constructor
  · intro h
    by_cases hmem : tab ∈ bs
    · obtain ⟨as', cs', rfl, hno⟩ := List.eq_append_cons_of_mem hmem
      rw [splitTab_append hno] at h
      obtain ⟨rfl, rfl⟩ := Prod.mk.inj (Option.some.inj h)
      exact ⟨rfl, hno⟩
    · rw [splitTab_of_not_mem hmem] at h
      cases h
  · rintro ⟨rfl, hno⟩
    exact splitTab_append hno cs

/-- The fields of a request line are what its first three tabs separate. -/
theorem parseRequest_eq_some_iff {line : List UInt8} {r : ParsedRequest} :
    parseRequest line = some r ↔
      line = proxyReqTag ++ tab :: (r.id ++ tab :: (r.role ++ tab :: r.prompt)) ∧
        tab ∉ r.id ∧ tab ∉ r.role := by
  have hlen : (proxyReqTag ++ [tab]).length = 10 := by decide
  rw [parseRequest]
  split
  · next htake =>
    obtain ⟨rest, rfl⟩ : ∃ rest, line = proxyReqTag ++ [tab] ++ rest :=
      ⟨line.drop 10, by rw [← htake, List.take_append_drop]⟩
    rw [← hlen, List.drop_left]
    simp only [Option.bind_eq_some_iff, Option.map_eq_some_iff, Prod.exists, splitTab_eq_some_iff,
      List.append_assoc, List.append_cancel_left_eq, List.singleton_append, List.cons.injEq,
      true_and]
    constructor
    · rintro ⟨id, more, ⟨rfl, hid⟩, role, prompt, ⟨rfl, hrole⟩, rfl⟩
      exact ⟨rfl, hid, hrole⟩
    · rintro ⟨rfl, hid, hrole⟩
      exact ⟨r.id, _, ⟨rfl, hid⟩, r.role, r.prompt, ⟨rfl, hrole⟩, rfl⟩
  · next htake =>
    refine iff_of_false (by simp) ?_
    rintro ⟨rfl, -⟩
    exact htake (by rw [List.append_cons, ← hlen, List.take_left])

/-- The lines that are requests: they start with the tag and have three tabs or more. -/
theorem parseRequest_isSome_iff (line : List UInt8) :
    (parseRequest line).isSome = true ↔
      (proxyReqTag ++ [tab]) <+: line ∧ 3 ≤ line.count tab := by
  have htag : proxyReqTag.count tab = 0 := by decide
  constructor
  · intro h
    obtain ⟨r, hr⟩ := Option.isSome_iff_exists.mp h
    obtain ⟨rfl, -, -⟩ := parseRequest_eq_some_iff.mp hr
    refine ⟨⟨_, (List.append_cons ..).symm⟩, ?_⟩
    simp only [List.count_append, List.count_cons_self]
    omega
  · rintro ⟨⟨rest, rfl⟩, hcount⟩
    simp only [List.count_append, htag, List.count_singleton_self] at hcount
    obtain ⟨id, more, rfl, hid⟩ :=
      List.eq_append_cons_of_mem (List.count_pos_iff.mp (by omega : 0 < rest.count tab))
    simp only [List.count_append, List.count_cons_self, List.count_eq_zero_of_not_mem hid] at hcount
    obtain ⟨role, prompt, rfl, hrole⟩ :=
      List.eq_append_cons_of_mem (List.count_pos_iff.mp (by omega : 0 < more.count tab))
    rw [Option.isSome_iff_exists]
    exact ⟨⟨id, role, prompt⟩, parseRequest_eq_some_iff.mpr ⟨by simp, hid, hrole⟩⟩

/-! ## A line -/

/-- A line with this prefix counts. -/
def bump (tag : List Char) (n : ℕ) (text : List Char) : ℕ :=
  if tag.isPrefixOf text then n + 1 else n

/-- What a line does to what is sent and counted. -/
structure LineStep (handler : Handler) (s : TriageState) (line : List UInt8) (s' : TriageState) :
    Prop where
  answering : s'.toAnswering = answerLine handler s.toAnswering line
  retries : s'.evalRetries = bump evalRetry s.evalRetries (decodeReplace line)
  fails : s'.evalFails = bump evaluatorFail s.evalFails (decodeReplace line)
  oks : s'.evalOks = bump evaluatorOk s.evalOks (decodeReplace line)

theorem lineStep_verifyFail {handler : Handler} {s : TriageState} {line : List UInt8}
    (h : LineStep handler s line s) (reason : List Char) :
    LineStep handler s line (s.verifyFail reason) := by
  rw [TriageState.verifyFail]
  split
  · exact ⟨h.answering, h.retries, h.fails, h.oks⟩
  · exact h

/-- A text with a prefix that `TRIAGE_DONE` does not have. -/
theorem ne_triageDone {tag text : List Char} (htext : tag.isPrefixOf text = true)
    (hdone : tag.isPrefixOf triageDone = false) : text ≠ triageDone := by
  rintro rfl
  rw [htext] at hdone
  cases hdone

/-- A line ends the run, or does its step. -/
theorem triageLine_cases (handler : Handler) (s : TriageState) (line : List UInt8) :
    (decodeReplace line = triageDone ∧ triageLine handler s line = .inr s) ∨
    (decodeReplace line ≠ triageDone ∧
      ∃ s', triageLine handler s line = .inl s' ∧ LineStep handler s line s') := by
  have hpre {tag : List Char} (h : tag.isPrefixOf (decodeReplace line) = true) :
      ∃ rest, decodeReplace line = tag ++ rest :=
    (List.isPrefixOf_iff_prefix.mp h).imp fun _ => Eq.symm
  by_cases hreq : (reqTagText ++ ['\t']).isPrefixOf (decodeReplace line) = true
  · obtain ⟨rest, htext⟩ := hpre hreq
    refine Or.inr ⟨ne_triageDone hreq rfl, ?_⟩
    rw [triageLine, if_pos hreq]
    cases hframe : hostFrame (decodeReplace line) with
    | some req => exact ⟨_, rfl, by rw [answerLine, hframe]; rfl, by rw [htext]; rfl,
        by rw [htext]; rfl, by rw [htext]; rfl⟩
    | none => exact ⟨_, rfl, by rw [answerLine, hframe], by rw [htext]; rfl,
        by rw [htext]; rfl, by rw [htext]; rfl⟩
  · have hquiet : answerLine handler s.toAnswering line = s.toAnswering := by
      rw [answerLine, hostFrame, if_neg hreq]
    rw [triageLine, if_neg hreq]
    by_cases hverify : evalVerifyFail.isPrefixOf (decodeReplace line) = true
    · obtain ⟨rest, htext⟩ := hpre hverify
      rw [if_pos hverify]
      refine Or.inr
        ⟨ne_triageDone hverify rfl, _, rfl, lineStep_verifyFail ⟨hquiet.symm, ?_, ?_, ?_⟩ _⟩
        <;> rw [htext] <;> rfl
    rw [if_neg hverify]
    by_cases hretry : evalRetry.isPrefixOf (decodeReplace line) = true
    · obtain ⟨rest, htext⟩ := hpre hretry
      rw [if_pos hretry]
      refine Or.inr ⟨ne_triageDone hretry rfl, _, rfl, hquiet.symm, ?_, ?_, ?_⟩
        <;> rw [htext] <;> rfl
    rw [if_neg hretry]
    by_cases hfail : evaluatorFail.isPrefixOf (decodeReplace line) = true
    · obtain ⟨rest, htext⟩ := hpre hfail
      rw [if_pos hfail]
      refine Or.inr ⟨ne_triageDone hfail rfl, _, rfl, hquiet.symm, ?_, ?_, ?_⟩
        <;> rw [htext] <;> rfl
    rw [if_neg hfail]
    by_cases hok : evaluatorOk.isPrefixOf (decodeReplace line) = true
    · obtain ⟨rest, htext⟩ := hpre hok
      rw [if_pos hok]
      refine Or.inr ⟨ne_triageDone hok rfl, _, rfl, hquiet.symm, ?_, ?_, ?_⟩
        <;> rw [htext] <;> rfl
    rw [if_neg hok]
    have hstep (s' : TriageState) (ha : s'.toAnswering = s.toAnswering)
        (hr : s'.evalRetries = s.evalRetries) (hf : s'.evalFails = s.evalFails)
        (ho : s'.evalOks = s.evalOks) : LineStep handler s line s' :=
      ⟨ha.trans hquiet.symm, hr.trans (if_neg hretry).symm, hf.trans (if_neg hfail).symm,
        ho.trans (if_neg hok).symm⟩
    by_cases houtput : "evaluator:".toList.isPrefixOf (decodeReplace line) = true
    · rw [if_pos houtput]
      exact Or.inr ⟨ne_triageDone houtput rfl, _, rfl, hstep _ rfl rfl rfl rfl⟩
    rw [if_neg houtput]
    by_cases hdone : decodeReplace line = triageDone
    · exact Or.inl ⟨hdone, if_pos hdone⟩
    · exact Or.inr ⟨hdone, s, if_neg hdone, hstep s rfl rfl rfl rfl⟩

/-! ## A run -/

def doneLine : List UInt8 := utf8Encode triageDone

/-- The lines that are handled: the complete lines before the first `TRIAGE_DONE`. -/
def triageLines (chunks : List (List UInt8)) : List (List UInt8) :=
  (completeLines newline chunks.flatten).takeWhile fun line => !(line == doneLine)

def triageRequests (chunks : List (List UInt8)) : List ParsedRequest :=
  (triageLines chunks).filterMap parseRequest

theorem decodeReplace_eq_triageDone_iff (line : List UInt8) :
    decodeReplace line = triageDone ↔ line = doneLine :=
  decodeReplace_eq_asciiText_iff (ascii_of_all (by decide : doneLine.all (· < 128) = true)) line

section

variable {handler : Handler} {s : TriageState} {line : List UInt8}

theorem triageLine_inl {s' : TriageState} (h : triageLine handler s line = .inl s') :
    (line == doneLine) = false ∧ LineStep handler s line s' := by
  obtain ⟨-, hdone⟩ | ⟨hne, s'', hgo, hline⟩ := triageLine_cases handler s line
  · rw [hdone] at h
    cases h
  · rw [hgo] at h
    obtain rfl := Sum.inl.inj h
    rw [ne_eq, decodeReplace_eq_triageDone_iff] at hne
    exact ⟨by simpa using hne, hline⟩

theorem triageLine_inr {r : TriageState} (h : triageLine handler s line = .inr r) :
    (line == doneLine) = true ∧ r = s := by
  obtain ⟨hdone, hend⟩ | ⟨-, s'', hgo, -⟩ := triageLine_cases handler s line
  · rw [hend] at h
    exact ⟨by simpa using (decodeReplace_eq_triageDone_iff line).mp hdone, (Sum.inr.inj h).symm⟩
  · rw [hgo] at h
    cases h

end

section

variable (handler : Handler) (args : TriageArgs) (chunks : List (List UInt8))

/-- The state at the end of a run. -/
def triageEnd : TriageState ⊕ TriageState :=
  handleLines (triageLine handler) (.init args) (completeLines newline chunks.flatten)

theorem driveTriage_eq :
    driveTriage handler args chunks =
      match triageEnd handler args chunks with
      | .inl s => (s.sent, .inl (s.timeout args))
      | .inr s => (s.sent, .inr (s.report args)) := by
  rw [driveTriage, readChunks_eq, triageEnd]
  cases handleLines (triageLine handler) (.init args) (completeLines newline chunks.flatten) <;> rfl

/-- How the stream is cut into reads makes no difference. -/
theorem driveTriage_flatten : driveTriage handler args chunks =
    driveTriage handler args [chunks.flatten] := by
  simp [driveTriage_eq, triageEnd]

/-- A part of the state that lines change as they change what is sent and counted. -/
theorem triageEnd_proj {τ : Type*} {f : TriageState → τ} {step : τ → List UInt8 → τ}
    (hstep : ∀ s line s', LineStep handler s line s' → f s' = step (f s) line) :
    Sum.elim f f (triageEnd handler args chunks) =
      (triageLines chunks).foldl step (f (.init args)) := by
  apply handleLines_proj
  · exact fun s line s' h => ⟨(triageLine_inl h).1, hstep s line s' (triageLine_inl h).2⟩
  · exact fun s line r h => ⟨(triageLine_inr h).1, congrArg f (triageLine_inr h).2⟩

/-- The command, and one frame for each request, in order. -/
theorem driveTriage_sent :
    (driveTriage handler args chunks).1 =
      utf8Encode (triageCommand args) :: frames handler 0 (triageRequests chunks) := by
  have hproj : Sum.elim TriageState.toAnswering TriageState.toAnswering
      (triageEnd handler args chunks) =
        (triageLines chunks).foldl (answerLine handler) (TriageState.init args).toAnswering :=
    triageEnd_proj handler args chunks fun _ _ _ h => h.answering
  have hsent := congrArg Answering.sent hproj
  rw [foldl_answerLine] at hsent
  rw [driveTriage_eq]
  cases h : triageEnd handler args chunks <;> rw [h] at hsent <;> exact hsent

/-! ## Counting -/

/-- The line starts with this text. -/
def hasPrefix (tag : List Char) (line : List UInt8) : Bool := (utf8Encode tag).isPrefixOf line

theorem isPrefixOf_decodeReplace {tag : List Char}
    (hascii : (utf8Encode tag).all (· < 128) = true)
    (htext : asciiText (utf8Encode tag) = tag) (line : List UInt8) :
    tag.isPrefixOf (decodeReplace line) = hasPrefix tag line := by
  have h := asciiText_prefix_decodeReplace (ascii_of_all hascii) line
  rw [htext, ← List.isPrefixOf_iff_prefix, ← List.isPrefixOf_iff_prefix] at h
  exact Bool.eq_iff_iff.mpr h

/-- A counter of lines with a prefix. -/
theorem triageEnd_count {f : TriageState → ℕ} {tag : List Char}
    (hascii : (utf8Encode tag).all (· < 128) = true) (htext : asciiText (utf8Encode tag) = tag)
    (hzero : f (.init args) = 0)
    (hstep : ∀ s line s', LineStep handler s line s' → f s' = bump tag (f s) (decodeReplace line)) :
    Sum.elim f f (triageEnd handler args chunks) = (triageLines chunks).countP (hasPrefix tag) := by
  have hproj : Sum.elim f f (triageEnd handler args chunks) =
      (triageLines chunks).foldl (fun n line => if hasPrefix tag line then n + 1 else n)
        (f (.init args)) := by
    refine triageEnd_proj handler args chunks fun s line s' h => ?_
    rw [hstep s line s' h, bump, isPrefixOf_decodeReplace hascii htext]
  rw [hproj, foldl_count, hzero, zero_add]

/-- A run ends with a report exactly if there is a line `TRIAGE_DONE`. -/
theorem triageEnd_isRight : (triageEnd handler args chunks).isRight = true ↔
    doneLine ∈ completeLines newline chunks.flatten := by
  have hstop : (triageEnd handler args chunks).isRight = true ↔
      ∃ line ∈ completeLines newline chunks.flatten, (line == doneLine) = true := by
    apply handleLines_isRight
    · exact fun s line s' h => (triageLine_inl h).1
    · exact fun s line r h => (triageLine_inr h).1
  rw [hstop]
  simp

/-- What is counted up to `TRIAGE_DONE`. -/
theorem driveTriage_report (hdone : doneLine ∈ completeLines newline chunks.flatten) :
    ∃ report, (driveTriage handler args chunks).2 = .inr report ∧
      report.evalRetries = (triageLines chunks).countP (hasPrefix evalRetry) ∧
      report.evalFails = (triageLines chunks).countP (hasPrefix evaluatorFail) ∧
      report.evalOks = (triageLines chunks).countP (hasPrefix evaluatorOk) := by
  have hretries := @triageEnd_count handler args chunks TriageState.evalRetries evalRetry
    (by decide) (by decide) rfl fun _ _ _ h => h.retries
  have hfails := @triageEnd_count handler args chunks TriageState.evalFails evaluatorFail
    (by decide) (by decide) rfl fun _ _ _ h => h.fails
  have hoks := @triageEnd_count handler args chunks TriageState.evalOks evaluatorOk
    (by decide) (by decide) rfl fun _ _ _ h => h.oks
  obtain ⟨s, hs⟩ := Sum.isRight_iff.mp ((triageEnd_isRight handler args chunks).mpr hdone)
  rw [hs] at hretries hfails hoks
  exact ⟨s.report args, by rw [driveTriage_eq, hs], hretries, hfails, hoks⟩

end

/-! ## Statement -/

/-- Every request before `TRIAGE_DONE` is answered once, in order, under the id it has in the
stream, by the handler's reply or the sentinel; and at `TRIAGE_DONE` the lines are counted. -/
structure AnswersAll (handler : Handler) (args : TriageArgs) (chunks : List (List UInt8)) :
    Prop where
  answers : (driveTriage handler args chunks).1.tail =
    (triageRequests chunks).zipIdx.map fun (req, call) =>
      responseLine req.id (payload handler call req)
  counts : doneLine ∈ completeLines newline chunks.flatten →
    ∃ report, (driveTriage handler args chunks).2 = .inr report ∧
      report.evalRetries = (triageLines chunks).countP (hasPrefix evalRetry) ∧
      report.evalFails = (triageLines chunks).countP (hasPrefix evaluatorFail) ∧
      report.evalOks = (triageLines chunks).countP (hasPrefix evaluatorOk)

theorem responseLine_id_inj {id id' text : List UInt8} :
    responseLine id text = responseLine id' text ↔ id = id' := by
  simp [responseLine]

/-- A stream has all its requests answered under their own ids exactly if these are well-formed
UTF-8. -/
theorem triage_answers_iff (handler : Handler) (args : TriageArgs) (chunks : List (List UInt8)) :
    AnswersAll handler args chunks ↔ ∀ req ∈ triageRequests chunks, IsUtf8 req.id := by
  have hiff : (driveTriage handler args chunks).1.tail =
      ((triageRequests chunks).zipIdx.map fun (req, call) =>
        responseLine req.id (payload handler call req)) ↔
      ∀ req ∈ triageRequests chunks, IsUtf8 req.id := by
    rw [driveTriage_sent, List.tail_cons, frames, List.map_inj_left]
    simp only [Prod.forall, List.mk_mem_zipIdx_iff_getElem?, responseLine_id_inj,
      utf8Encode_decodeReplace_iff]
    constructor
    · intro h req hreq
      obtain ⟨call, hcall⟩ := List.getElem?_of_mem hreq
      exact h req call hcall
    · exact fun h req call hcall => h req (List.mem_of_getElem? hcall)
  exact ⟨fun h => hiff.mp h.answers,
    fun h => ⟨hiff.mpr h, driveTriage_report handler args chunks⟩⟩

/-- A handler that echoes the prompt. -/
def echoHandler : Handler := fun _ _ prompt => .ok (prompt.map some)

/-- The id of a request comes back as U+FFFD when its byte is not UTF-8. -/
theorem invalid_id_changed : ¬ ∀ (handler : Handler) (args : TriageArgs)
    (chunks : List (List UInt8)), AnswersAll handler args chunks := by
  intro h
  let line : List UInt8 := proxyReqTag ++ [tab, 0xFF, tab, 0x61, tab, 0x62, newline]
  have hanswers := (h echoHandler ⟨"mock".toList, "x".toList, "parallel".toList⟩
    [line, doneLine ++ [newline]]).answers
  revert hanswers
  decide

end LiberalOS.Host
