import LiberalOS.Foundation.Decimal
import LiberalOS.Foundation.NulString

/-!
# Framing of the proxy protocol

The request and response lines of `user/proxy_client.h`, the loop of `proxy_recv` as a machine over
the bytes it reads, and the line `host/proxy_daemon.py` answers with. A line buffer of 512 bytes
keeps the first 511 bytes of a line.

## Main results

* `recvBytes_responseLine` — a reply that carries the reader's id is received, cut to the buffer.
-/
namespace LiberalOS.Proxy
open Foundation

def tab : UInt8 := 9
def newline : UInt8 := 10

def proxyReqTag : List UInt8 := (CString.lit "PROXY_REQ").bytes
def proxyResTag : List UInt8 := (CString.lit "PROXY_RES").bytes

/-! ## Requests -/

/-- `_proxy_append_str`: append while there is room for a byte and one more. -/
def proxyAppendStr (max : Nat) (buf s : List UInt8) : List UInt8 :=
  buf ++ s.take (max - 1 - buf.length)

/-- `_proxy_append_int`. -/
def proxyAppendInt (buf : List UInt8) (v : Int) : List UInt8 :=
  if v < 0 then buf ++ 45 :: decimal (-v).toNat else buf ++ decimal v.toNat

/-- The line `proxy_send` writes. -/
def requestLine (pid : Nat) (role prompt : CString) : List UInt8 :=
  let buf := proxyAppendStr 640 [] proxyReqTag
  let buf := buf ++ [tab]
  let buf := proxyAppendInt buf pid
  let buf := buf ++ [tab]
  let buf := proxyAppendStr 640 buf role.bytes
  let buf := buf ++ [tab]
  let buf := proxyAppendStr 640 buf prompt.bytes
  buf ++ [newline]

/-- The line the host sends for a request: its id text, and the reply. -/
def responseLine (id reply : List UInt8) : List UInt8 :=
  proxyResTag ++ tab :: (id ++ tab :: (reply ++ [newline]))

/-! ## Responses -/

/-- The test of `proxy_recv` on a complete line, and the payload of a line that passes. -/
def acceptLine (our : Int) (text : List UInt8) : Option (List UInt8) :=
  if text.length > 10 ∧ text.take 9 = proxyResTag ∧ text[9]? = some tab then
    match readDecimal (text.drop 10) with
    | some (id, idlen) =>
      if text[10 + idlen]? = some tab ∧ id = our then some (text.drop (10 + idlen + 1)) else none
    | none => none
  else none

/-- What the loop does with a byte: it goes on with a line buffer, or returns a payload. -/
inductive RecvStep where
  | more (line : List UInt8)
  | done (payload : List UInt8)
  deriving DecidableEq

/-- One iteration of the loop of `proxy_recv`. -/
def recvByte (our : Int) (line : List UInt8) (c : UInt8) : RecvStep :=
  if c ≠ newline then .more (if line.length < 511 then line ++ [c] else line)
  else
    match acceptLine our line with
    | some payload => .done payload
    | none => .more []

/-- The loop over bytes that are there: the payload and the bytes left, or `none` when it would go
on reading. -/
def recvBytes (our : Int) : List UInt8 → List UInt8 → Option (List UInt8 × List UInt8)
  | _, [] => none
  | line, c :: rest =>
    match recvByte our line c with
    | .more line => recvBytes our line rest
    | .done payload => some (payload, rest)

/-- The copy of the payload into `out`, with its terminator; returns the length. -/
def storePayload (out payload : List UInt8) (outmax : Int) : Int × List UInt8 :=
  let text := payload.take (outmax - 1).toNat
  (text.length, text ++ 0 :: out.drop (text.length + 1))

/-! ## Receiving a reply -/

/-- Cutting early loses nothing that a later cut would keep. -/
theorem take_take_append (n : Nat) (a b : List UInt8) :
    (a.take n ++ b).take n = (a ++ b).take n := by
  by_cases h : a.length ≤ n
  · rw [List.take_of_length_le h]
  · have hlen : (a.take n).length = n := by
      rw [List.length_take]
      omega
    rw [List.take_append_of_le_length hlen.ge, List.take_take, Nat.min_self,
      List.take_append_of_le_length (by omega)]

theorem recvByte_of_ne {our : Int} {line : List UInt8} {c : UInt8} (hc : c ≠ newline)
    (hline : line.length ≤ 511) : recvByte our line c = .more ((line ++ [c]).take 511) := by
  rw [recvByte, if_pos hc]
  split
  · rw [List.take_of_length_le (by simp; omega)]
  · rw [List.take_append_of_le_length (by omega), List.take_of_length_le hline]

/-- Bytes before the newline are collected as far as the buffer goes. -/
theorem recvBytes_append {our : Int} {text : List UInt8} (htext : newline ∉ text)
    {line : List UInt8} (hline : line.length ≤ 511) (rest : List UInt8) :
    recvBytes our line (text ++ rest) = recvBytes our ((line ++ text).take 511) rest := by
  induction text generalizing line with
  | nil => rw [List.nil_append, List.append_nil, List.take_of_length_le hline]
  | cons c text ih =>
    have hc : c ≠ newline := fun h => htext (h ▸ List.mem_cons_self)
    have hrest : newline ∉ text := fun h => htext (List.mem_cons_of_mem _ h)
    rw [List.cons_append, recvBytes, recvByte_of_ne hc hline]
    simp only
    rw [ih hrest (List.length_take_le _ _), take_take_append, List.append_assoc]
    rfl

/-- A complete line is the reply, or is skipped. -/
theorem recvBytes_line (our : Int) {line : List UInt8} (hline : newline ∉ line)
    (rest : List UInt8) :
    recvBytes our [] (line ++ newline :: rest) =
      (acceptLine our (line.take 511)).elim (recvBytes our [] rest) fun p => some (p, rest) := by
  rw [recvBytes_append hline (by simp), List.nil_append, recvBytes, recvByte,
    if_neg (not_not.mpr rfl)]
  cases acceptLine our (line.take 511) <;> rfl

/-- The test of the reader on a line with an id field of digits: it passes if they read as its own
id. -/
theorem acceptLine_digits {ds : List UInt8} (hne : ds ≠ []) (hds : ∀ c ∈ ds, isDigit c = true)
    (our : Int) (text : List UInt8) :
    acceptLine our (proxyResTag ++ tab :: (ds ++ tab :: text)) =
      if readDigits ds = our then some text else none := by
  have htag : proxyResTag.length = 9 := by decide
  have hdrop : (proxyResTag ++ tab :: (ds ++ tab :: text)).drop 10 = ds ++ tab :: text := by
    rw [List.drop_append, htag]
    simp [List.drop_eq_nil_of_le, htag]
  have hread := readDecimal_digits hne hds (c := tab) (by decide) text
  have hlen : (proxyResTag ++ tab :: (ds ++ tab :: text)).length > 10 := by
    simp [htag]
    omega
  have htake : (proxyResTag ++ tab :: (ds ++ tab :: text)).take 9 = proxyResTag := by
    rw [← htag, List.take_left]
  have hsep : (proxyResTag ++ tab :: (ds ++ tab :: text))[9]? = some tab := by
    rw [List.getElem?_append_right (by omega), htag]
    rfl
  have hidx : (proxyResTag ++ tab :: (ds ++ tab :: text))[10 + ds.length]? = some tab := by
    rw [← List.getElem?_drop, hdrop, List.getElem?_append_right (Nat.le_refl _), Nat.sub_self]
    rfl
  have hpay : (proxyResTag ++ tab :: (ds ++ tab :: text)).drop (10 + ds.length + 1) = text := by
    rw [Nat.add_assoc, ← List.drop_drop, hdrop, ← List.drop_drop, List.drop_left]
    rfl
  rw [acceptLine, if_pos ⟨hlen, htake, hsep⟩, hdrop, hread]
  simp only [hidx, hpay, true_and]

/-- The test of the reader on a response line: it passes if the id is its own. -/
theorem acceptLine_eq {pid : Nat} (hpid : pid < 2147483648) (our : Int) (text : List UInt8) :
    acceptLine our (proxyResTag ++ tab :: (decimal pid ++ tab :: text)) =
      if (pid : Int) = our then some text else none := by
  rw [acceptLine_digits (decimal_ne_nil pid) (fun _ => isDigit_of_mem_decimal),
    readDigits_decimal hpid]

/-- The line buffer cuts the reply, not what stands before it. -/
theorem take_response (pid : Nat) (reply : List UInt8) :
    (proxyResTag ++ tab :: (decimal pid ++ tab :: reply)).take 511 =
      proxyResTag ++ tab :: (decimal pid ++ tab :: reply.take (500 - (decimal pid).length)) := by
  have htag : proxyResTag.length = 9 := by decide
  have hid := length_decimal_le pid
  obtain ⟨m, hm⟩ : ∃ m, 511 = 9 + (1 + ((decimal pid).length + (1 + m))) :=
    ⟨500 - (decimal pid).length, by omega⟩
  have hm' : 500 - (decimal pid).length = m := by omega
  rw [hm', hm, List.take_append, htag]
  simp only [List.take_append, Nat.add_comm 1, Nat.add_sub_cancel_left, List.take_succ_cons]
  rw [List.take_of_length_le (by omega), List.take_of_length_le (by omega)]

theorem newline_not_mem_decimal (v : Nat) : newline ∉ decimal v := by
  intro h
  have := isDigit_of_mem_decimal h
  simp [newline, isDigit] at this

/-- The text of a response and the end of its line. -/
theorem responseLine_eq_concat (id reply : List UInt8) :
    responseLine id reply = (proxyResTag ++ tab :: (id ++ tab :: reply)) ++ [newline] := by
  simp [responseLine]

/-- The text of a response is a line if its id and the reply are. -/
theorem newline_not_mem_response {id reply : List UInt8} (hid : newline ∉ id)
    (hreply : newline ∉ reply) : newline ∉ proxyResTag ++ tab :: (id ++ tab :: reply) := by
  have htag : newline ∉ proxyResTag := by decide
  have htab : newline ≠ tab := by decide
  simp [htag, htab, hid, hreply]

/-- What a reader makes of a response line at the front of the stream. -/
theorem recvBytes_response {pid : Nat} (hpid : pid < 2147483648) (our : Int) {reply : List UInt8}
    (hreply : newline ∉ reply) (rest : List UInt8) :
    recvBytes our [] (responseLine (decimal pid) reply ++ rest) =
      if (pid : Int) = our then some (reply.take (500 - (decimal pid).length), rest)
      else recvBytes our [] rest := by
  have htext := newline_not_mem_response (newline_not_mem_decimal pid) hreply
  rw [responseLine_eq_concat, List.append_assoc, List.singleton_append, recvBytes_line our htext,
    take_response, acceptLine_eq hpid]
  by_cases hour : (pid : Int) = our
  · rw [if_pos hour, if_pos hour, Option.elim_some]
  · rw [if_neg hour, if_neg hour, Option.elim_none]

/-- A reply with the reader's id, at the front of the stream, is received and nothing more. -/
theorem recvBytes_responseLine {pid : Nat} (hpid : pid < 2147483648) {reply : List UInt8}
    (hreply : newline ∉ reply) (rest : List UInt8) :
    recvBytes pid [] (responseLine (decimal pid) reply ++ rest) =
      some (reply.take (500 - (decimal pid).length), rest) := by
  rw [recvBytes_response hpid pid hreply, if_pos rfl]

end LiberalOS.Proxy
