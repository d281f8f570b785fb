import LiberalOS.Foundation.LineReader
import LiberalOS.Foundation.Utf8Decode
import LiberalOS.Proxy.Codec

/-!
# How the daemon answers

What `_drive_proxytest` and `_drive_triage` of `host/proxy_daemon.py` share: the loop that collects
lines from reads of any size, and the answer to a request, which is the handler's reply or the
sentinel.

The daemon splits the decoded text of a line. `hostFrame_decodeReplace` says what that means for the
bytes: the fields are split at the same tabs, and each is decoded by itself.

## Main results

* `hostFrame_decodeReplace` — the fields of a request.
* `foldl_answerLine` — the frames sent for any lines.
-/
namespace LiberalOS.Host
open Foundation Proxy Kernel

/-! ## Sending -/

/-- A Python string: its characters, and `none` for a surrogate, which cannot be encoded. -/
abbrev PyStr := List (Option Char)

/-- `data.encode("utf-8")`; `none` when it raises. -/
def pyEncode (data : PyStr) : Option (List UInt8) := (data.mapM id).map utf8Encode

/-- The text of a PROXY_RES frame. -/
def resText (id : List Char) (reply : PyStr) : PyStr :=
  (resTagText ++ '\t' :: (id ++ ['\t'])).map some ++ (reply ++ [some '\n'])

/-- What `last_error` is made of: an exception of the handler, or the reply that has no encoding. -/
inductive AnswerError where
  | raised (text : List Char)
  | unicodeEncodeError
  deriving DecidableEq

/-- A handler, by the number of the call: its reply, or the text of the exception it raises. -/
abbrev Handler := ℕ → List Char → List Char → Except (List Char) PyStr

/-- The `try` block around the handler: the bytes sent, and the error. -/
def answer (handler : Handler) (call : ℕ) (req : HostRequest) :
    List UInt8 × Option AnswerError :=
  let sentinel := hostSend req.id "__HANDLER_ERROR__".toList
  match handler call req.role req.prompt with
  | .ok reply =>
    match pyEncode (resText req.id reply) with
    | some frame => (frame, none)
    | none => (sentinel, some .unicodeEncodeError)
  | .error text => (sentinel, some (.raised text))

/-! ## Answering -/

/-- What is sent, one entry for each call of `ch.send`, and how often the handler was called. -/
structure Answering where
  sent : List (List UInt8)
  calls : ℕ
  lastError : Option AnswerError

/-- Answer a request. -/
def Answering.serve (handler : Handler) (a : Answering) (req : HostRequest) : Answering :=
  let r := answer handler a.calls req
  ⟨a.sent ++ [r.1], a.calls + 1, r.2.or a.lastError⟩

/-- The answer was the handler's reply. -/
def Answering.served (handler : Handler) (a : Answering) (req : HostRequest) : Bool :=
  (answer handler a.calls req).2.isNone

/-- What a line has sent. -/
def answerLine (handler : Handler) (a : Answering) (line : List UInt8) : Answering :=
  match hostFrame (decodeReplace line) with
  | some req => a.serve handler req
  | none => a

/-! ## Requests in bytes -/

/-- The text behind the id: the reply if there is one that can be encoded, else the sentinel. -/
def payload (handler : Handler) (call : ℕ) (req : ParsedRequest) : List UInt8 :=
  match handler call (decodeReplace req.role) (decodeReplace req.prompt) with
  | .ok reply => (pyEncode reply).getD handlerError
  | .error _ => handlerError

theorem pyEncode_append (as bs : PyStr) :
    pyEncode (as ++ bs) =
      (pyEncode as).bind fun a => (pyEncode bs).map fun b => a ++ b := by
  simp only [pyEncode, List.mapM_append]
  cases as.mapM id <;> cases bs.mapM id <;> simp

theorem pyEncode_some (cs : List Char) : pyEncode (cs.map some) = some (utf8Encode cs) := by
  have hchars : (cs.map some).mapM id = some cs := by
    induction cs with
    | nil => rfl
    | cons c cs ih =>
      rw [List.map_cons, List.mapM_cons, ih]
      rfl
  rw [pyEncode, hchars, Option.map_some]

/-- The frame can be encoded exactly if the reply can. -/
theorem pyEncode_resText (id : List Char) (reply : PyStr) :
    pyEncode (resText id reply) = (pyEncode reply).map (responseLine (utf8Encode id)) := by
  have htag : utf8Encode resTagText = proxyResTag := by decide
  have htab : String.utf8EncodeChar '\t' = [tab] := by decide
  have hnl : pyEncode [some '\n'] = some [newline] := by decide
  rw [resText, pyEncode_append, pyEncode_append, pyEncode_some, hnl]
  cases pyEncode reply <;> simp [responseLine, htag, htab]

/-- The bytes of an answer. -/
theorem answer_fst (handler : Handler) (call : ℕ) (req : ParsedRequest) :
    (answer handler call
        ⟨decodeReplace req.id, decodeReplace req.role, decodeReplace req.prompt⟩).1 =
      responseLine (utf8Encode (decodeReplace req.id)) (payload handler call req) := by
  have herr : utf8Encode "__HANDLER_ERROR__".toList = handlerError := by decide
  rw [answer, payload, hostSend_eq_responseLine, herr]
  cases handler call (decodeReplace req.role) (decodeReplace req.prompt) with
  | error text => rfl
  | ok reply =>
    simp only [pyEncode_resText]
    cases pyEncode reply <;> rfl

/-- Splitting the text at a tab is splitting the bytes. -/
theorem splitTab_cases (bs : List UInt8) :
    (splitTab bs = none ∧ '\t' ∉ decodeReplace bs) ∨
    ∃ as cs, splitTab bs = some (as, cs) ∧ '\t' ∉ decodeReplace as ∧
      decodeReplace bs = decodeReplace as ++ '\t' :: decodeReplace cs := by
  have htab : tab < 128 := by decide
  by_cases h : tab ∈ bs
  · obtain ⟨as, cs, rfl, hno⟩ := List.eq_append_cons_of_mem h
    refine Or.inr ⟨as, cs, splitTab_append hno cs, ?_, decodeReplace_append_ascii htab as cs⟩
    exact fun hmem => hno ((mem_decodeReplace_ascii htab as).mp hmem)
  · exact Or.inl ⟨splitTab_of_not_mem h, fun hmem => h ((mem_decodeReplace_ascii htab bs).mp hmem)⟩

/-- The request the daemon finds in the text has the fields of the bytes, each decoded. -/
theorem hostFrame_decodeReplace (line : List UInt8) :
    hostFrame (decodeReplace line) = (parseRequest line).map fun r =>
      ⟨decodeReplace r.id, decodeReplace r.role, decodeReplace r.prompt⟩ := by
  have hascii : ∀ b ∈ proxyReqTag ++ [tab], b < 128 := ascii_of_all (by decide)
  have htext : asciiText (proxyReqTag ++ [tab]) = reqTagText ++ ['\t'] := by decide
  have hlen : (proxyReqTag ++ [tab]).length = 10 := by decide
  have hstarts := asciiText_prefix_decodeReplace hascii line
  rw [htext, ← List.isPrefixOf_iff_prefix] at hstarts
  by_cases hpre : (proxyReqTag ++ [tab]) <+: line
  · obtain ⟨rest, rfl⟩ := hpre
    have htake : (proxyReqTag ++ [tab] ++ rest).take 10 = proxyReqTag ++ [tab] := by
      rw [← hlen, List.take_left]
    have hdrop : (proxyReqTag ++ [tab] ++ rest).drop 10 = rest := by rw [← hlen, List.drop_left]
    have hsplit : splitMax '\t' 3 (decodeReplace (proxyReqTag ++ [tab] ++ rest)) =
        reqTagText :: splitMax '\t' 2 (decodeReplace rest) := by
      rw [decodeReplace_asciiText_append hascii, htext, List.append_assoc]
      exact splitMax_append (by decide) 2 _
    rw [hostFrame, if_pos (hstarts.mpr (List.prefix_append _ _)), hsplit, parseRequest,
      if_pos htake, hdrop]
    obtain ⟨hnone, hno⟩ | ⟨id, more, hsome, hno, hdec⟩ := splitTab_cases rest
    · rw [hnone, splitMax_of_not_mem hno]
      rfl
    · rw [hsome, hdec, splitMax_append hno, Option.bind_some]
      obtain ⟨hnone, hno⟩ | ⟨role, prompt, hsome, hno, hdec⟩ := splitTab_cases more
      · rw [hnone, splitMax_of_not_mem hno]
        rfl
      · rw [hsome, hdec, splitMax_append hno]
        rfl
  · have htake : ¬ line.take 10 = proxyReqTag ++ [tab] := fun h =>
      hpre (h ▸ List.take_prefix _ _)
    rw [hostFrame, if_neg (fun h => hpre (hstarts.mp h)), parseRequest, if_neg htake]
    rfl

/-- The frames that answer these requests, the first one being call number `call`. -/
def frames (handler : Handler) (call : ℕ) (reqs : List ParsedRequest) : List (List UInt8) :=
  (reqs.zipIdx call).map fun (req, k) =>
    responseLine (utf8Encode (decodeReplace req.id)) (payload handler k req)

/-- Lines send one frame for each request among them, in order. -/
theorem foldl_answerLine (handler : Handler) (a : Answering) (lines : List (List UInt8)) :
    (lines.foldl (answerLine handler) a).sent =
      a.sent ++ frames handler a.calls (lines.filterMap parseRequest) := by
  induction lines generalizing a with
  | nil => simp [frames]
  | cons line lines ih =>
    rw [List.foldl_cons, ih, answerLine, hostFrame_decodeReplace]
    cases hparse : parseRequest line with
    | none => simp [hparse]
    | some req => simp [hparse, frames, Answering.serve, answer_fst]

end LiberalOS.Host
