import LiberalOS.Foundation.BoundedBuffer
import LiberalOS.Foundation.LineReader
import LiberalOS.Proxy.Client

/-!
# The line buffer of `proxy_recv`

`proxy_recv` of `user/proxy_client.h` by its indices, with `memcmp` and `memmove` of `user/ulib.c`,
on an input that ends where `read` returns 0. Every load and store is checked: of `line` only what
has been written since the last newline may be read.

## Main results

* `proxyRecvInLoop_eq` — no check fails, and the loop does what `recvBytes` does.
* `acceptLine_eq_some_iff` — the lines that pass the test, as a grammar.
* `proxyRecvIn_demultiplexes` — the first reply of the grammar is what is received.
-/
namespace LiberalOS.Proxy
open Foundation

/-! ## Memory of `user/ulib.c` -/

/-- `memcmp` -/
def memcmp : List UInt8 → List UInt8 → ℕ → Option Int
  | _, _, 0 => some 0
  | a :: p, b :: q, n + 1 => if a ≠ b then some (a.toNat - b.toNat) else memcmp p q n
  | _, _, _ + 1 => none

/-- `memmove` from `src[start..]` to `dst`, another array, which may lie below or above. -/
def memmove (below : Bool) (dst src : List UInt8) (start : ℕ) (n : Int) : Option (List UInt8) :=
  if below then copyUp src start n.toNat 0 dst else copyDown src start n.toNat dst

/-! ## Receiving -/

/-- `char line[512]` up to `linelen`. -/
abbrev LineBuf := Filled UInt8 512

/-- The loop of `_proxy_parse_int` on `s[start..]` from index `i` on, for at most `room` bytes. -/
def parseIntLoop (s : List UInt8) (start : ℕ) : ℕ → ℕ → Int → Option (Int × ℕ)
  | 0, i, v => some (v, i)
  | room + 1, i, v =>
    s[start + i]?.bind fun c =>
      if isDigit c then parseIntLoop s start room (i + 1) (wrap32 (v * 10 + ((c.toNat : Int) - 48)))
      else some (v, i)

/-- `_proxy_parse_int`: the value and `consumed`, or a failure without digits. -/
def proxyParseInt (s : List UInt8) (start : ℕ) (max : Int) : Option (Option (Int × ℕ)) :=
  (parseIntLoop s start max.toNat 0 0).map fun r => if r.2 = 0 then none else some r

/-- The payload of the line goes to `out`: the return value, and `out`. The tag has 9 bytes. -/
def recvPayload (below : Bool) (line : List UInt8) (linelen : Int) (idlen : ℕ)
    (out : List UInt8) (outmax : Int) : Option (Int × List UInt8) := do
  let plen := linelen - 9 - 1 - idlen - 1
  let plen := if plen > outmax - 1 then outmax - 1 else plen
  let out ← memmove below out line (9 + 1 + idlen + 1) plen
  let out ← storeAt out plen 0
  some (plen, out)

/-- What is done at a newline: the line is dropped, or it is the reply, with what is returned and
left in `out`. -/
def recvLine (below : Bool) (our : Int) (line : LineBuf) (out : List UInt8) (outmax : Int) :
    Option (Option (Int × List UInt8)) := do
  let linelen := line.items.length
  let line ← line.push 0
  if linelen > 9 + 1 then
    let diff ← memcmp line.items proxyResTag 9
    if diff = 0 then
      let c ← line.items[9]?
      if c = tab then
        let id ← proxyParseInt line.items (9 + 1) (linelen - 9 - 1)
        match id with
        | some (id, idlen) =>
          let c ← line.items[9 + 1 + idlen]?
          if c = tab ∧ id = our then
            (recvPayload below line.items linelen idlen out outmax).map some
          else some none
        | none => some none
      else some none
    else some none
  else some none

/-- What `proxy_recv` returns and leaves in `out`, and the input it has not read. -/
structure RecvOutcome where
  ret : Int
  out : List UInt8
  rest : List UInt8
  deriving DecidableEq

def proxyRecvInLoop (below : Bool) (our : Int) (out : List UInt8) (outmax : Int) :
    LineBuf → List UInt8 → Option RecvOutcome
  | _, [] => some ⟨-1, out, []⟩
  | line, c :: rest =>
    if c ≠ newline then
      if line.items.length < 512 - 1 then
        (line.push c).bind fun line => proxyRecvInLoop below our out outmax line rest
      else proxyRecvInLoop below our out outmax line rest
    else
      (recvLine below our line out outmax).bind fun reply =>
        reply.elim (proxyRecvInLoop below our out outmax .empty rest) fun r =>
          some ⟨r.1, r.2, rest⟩

/-- `proxy_recv`. A null `out` is `none`. -/
def proxyRecvIn (below : Bool) (fd our : Int) (out : Option (List UInt8)) (outmax : Int)
    (input : List UInt8) : Option RecvOutcome :=
  out.elim (some ⟨-1, [], input⟩) fun out =>
    if fd < 0 ∨ outmax ≤ 0 then some ⟨-1, out, input⟩
    else proxyRecvInLoop below our out outmax .empty input

/-! ## The checks -/

theorem memcmp_eq {p q : List UInt8} {n : ℕ} (hp : n ≤ p.length) (hq : n ≤ q.length) :
    ∃ diff, memcmp p q n = some diff ∧ (diff = 0 ↔ p.take n = q.take n) := by
  fun_induction memcmp p q n with
  | case1 p q => exact ⟨0, rfl, by simp⟩
  | case2 a p b q n hne =>
    have hbytes : a.toNat ≠ b.toNat := fun h => hne (UInt8.toNat_inj.mp h)
    refine ⟨_, rfl, iff_of_false (by omega) ?_⟩
    simp [hne]
  | case3 a p b q n heq ih =>
    obtain ⟨diff, hdiff, hiff⟩ := ih (by simpa using hp) (by simpa using hq)
    refine ⟨diff, hdiff, hiff.trans ?_⟩
    simp [not_not.mp heq]
  | case4 p q n hcons =>
    obtain ⟨a, p, rfl⟩ := List.exists_cons_of_length_pos (by omega : 0 < p.length)
    obtain ⟨b, q, rfl⟩ := List.exists_cons_of_length_pos (by omega : 0 < q.length)
    exact (hcons a p b q rfl rfl).elim

theorem memmove_eq (below : Bool) {dst src : List UInt8} {start n : ℕ}
    (hsrc : start + n ≤ src.length) (hdst : n ≤ dst.length) :
    memmove below dst src start n = some ((src.drop start).take n ++ dst.drop n) := by
  unfold memmove
  split
  · exact copyUp_eq hsrc hdst
  · exact copyDown_eq hsrc hdst

/-- The digits that the loop reads. -/
theorem parseIntLoop_eq {s : List UInt8} {start room i : ℕ} (h : start + i + room ≤ s.length)
    (v : Int) : parseIntLoop s start room i v =
      some ((((s.drop (start + i)).take room).takeWhile isDigit).foldl
          (fun v c => wrap32 (v * 10 + ((c.toNat : Int) - 48))) v,
        i + (((s.drop (start + i)).take room).takeWhile isDigit).length) := by
  induction room generalizing i v with
  | zero => rfl
  | succ room ih =>
    have hload : start + i < s.length := by omega
    rw [parseIntLoop, List.getElem?_eq_getElem hload, Option.bind_some,
      List.drop_eq_getElem_cons hload, List.take_succ_cons, List.takeWhile_cons]
    split
    · rw [ih (by omega), List.foldl_cons, List.length_cons, Nat.add_assoc start,
        Nat.add_assoc i, Nat.add_comm 1]
    · rfl

theorem proxyParseInt_eq {s : List UInt8} {start n : ℕ} (h : start + n ≤ s.length) :
    proxyParseInt s start n = some (readDecimal ((s.drop start).take n)) := by
  rw [proxyParseInt, Int.toNat_natCast, parseIntLoop_eq h, readDecimal]
  simp [readDigits]

variable {below : Bool} {our : Int} {out : List UInt8} {outmax : Int} {text : List UInt8}

/-- The payload is not longer than the line, and is cut to what `out` has room for. -/
theorem recvPayload_eq {idlen : ℕ} (hid : 11 + idlen ≤ text.length) (h1 : 1 ≤ outmax)
    (hout : outmax ≤ out.length) :
    recvPayload below (text ++ [0]) text.length idlen out outmax =
      some (storePayload out (text.drop (11 + idlen)) outmax) := by
  generalize hsent : (text.drop (11 + idlen)).take (outmax - 1).toNat = sent
  have hlen : sent.length = min (outmax - 1).toNat (text.length - (11 + idlen)) := by
    rw [← hsent, List.length_take, List.length_drop]
  have hplen : (if (text.length : Int) - 9 - 1 - idlen - 1 > outmax - 1 then outmax - 1
      else (text.length : Int) - 9 - 1 - idlen - 1) = sent.length := by
    split <;> omega
  have hcopied : ((text ++ [0]).drop (11 + idlen)).take sent.length = sent := by
    rw [List.drop_append_of_le_length hid, List.take_append_of_le_length (by simp; omega), ← hsent,
      List.length_take, List.take_eq_take_iff]
    omega
  have hmove : memmove below out (text ++ [0]) (9 + 1 + idlen + 1) sent.length =
      some (sent ++ out.drop sent.length) := by
    rw [show 9 + 1 + idlen + 1 = 11 + idlen by omega, memmove_eq below (by simp; omega) (by omega),
      hcopied]
  have hend : storeAt (sent ++ out.drop sent.length) sent.length 0 =
      some (sent ++ 0 :: out.drop (sent.length + 1)) := by
    rw [storeAt_natCast (by simp; omega), List.take_left, ← List.drop_drop, List.drop_left,
      List.drop_drop]
  simp only [recvPayload, hplen, hmove, Option.bind_eq_bind, Option.bind_some, hend, storePayload,
    hsent]

/-- Behind the text of a line there is its terminator, which is no separator. -/
theorem load_terminated {i : ℕ} (hi : i ≤ text.length) :
    ∃ c, (text ++ [0])[i]? = some c ∧ (c = tab ↔ text[i]? = some tab) := by
  obtain hlt | rfl := Nat.lt_or_eq_of_le hi
  · refine ⟨text[i], ?_, ?_⟩
    · rw [List.getElem?_append_left hlt, List.getElem?_eq_getElem hlt]
    · rw [List.getElem?_eq_getElem hlt, Option.some.injEq]
  · refine ⟨0, List.getElem?_concat_length, ?_⟩
    rw [List.getElem?_eq_none (Nat.le_refl _)]
    simp [tab]

/-- The test of a line reads nothing behind its terminator. -/
theorem recvLine_eq {line : LineBuf} (hline : line.items.length ≤ 511) (h1 : 1 ≤ outmax)
    (hout : outmax ≤ out.length) : recvLine below our line out outmax =
      some ((acceptLine our line.items).map fun payload => storePayload out payload outmax) := by
  have htag : proxyResTag.length = 9 := by decide
  have hpush : line.push 0 = some ⟨line.items ++ [0], line.length_succ_le (by omega) 0⟩ :=
    dif_pos (by omega)
  simp only [recvLine, hpush, Option.bind_eq_bind, Option.bind_some, acceptLine]
  clear hpush
  generalize line.items = text at *
  by_cases hlen : text.length > 10
  swap
  · rw [if_neg (by omega), if_neg (by omega)]
    rfl
  obtain ⟨diff, hdiff, hzero⟩ := memcmp_eq (p := text ++ [0]) (q := proxyResTag) (n := 9)
    (by simp; omega) htag.ge
  rw [List.take_append_of_le_length (by omega), List.take_of_length_le htag.le] at hzero
  have hload : (text ++ [0])[9]? = text[9]? := List.getElem?_append_left (by omega)
  have hparse : proxyParseInt (text ++ [0]) (9 + 1) (text.length - 9 - 1) =
      some (readDecimal (text.drop 10)) := by
    have hmax : (text.length : Int) - 9 - 1 = (text.length - 10 : ℕ) := by omega
    rw [hmax, proxyParseInt_eq (by simp; omega), List.drop_append_of_le_length (by omega),
      List.take_append_of_le_length (by simp), List.take_of_length_le (by simp)]
  rw [if_pos hlen, hdiff, Option.bind_some, hload, hparse]
  by_cases htake : text.take 9 = proxyResTag
  swap
  · rw [if_neg (hzero.not.mpr htake), if_neg (fun h => htake h.2.1)]
    rfl
  obtain ⟨c, hc⟩ : ∃ c, text[9]? = some c := ⟨_, List.getElem?_eq_getElem (by omega)⟩
  rw [if_pos (hzero.mpr htake), hc, Option.bind_some]
  by_cases htab : c = tab
  swap
  · rw [if_neg htab, if_neg (fun h => htab (Option.some.inj h.2.2))]
    rfl
  rw [if_pos htab, if_pos ⟨hlen, htake, congrArg some htab⟩, Option.bind_some]
  cases hread : readDecimal (text.drop 10) with
  | none => rfl
  | some r =>
    obtain ⟨-, rfl⟩ := readDecimal_eq_some hread
    have hid := (List.takeWhile_sublist isDigit (l := text.drop 10)).length_le
    rw [List.length_drop] at hid
    generalize readDigits ((text.drop 10).takeWhile isDigit) = id at *
    generalize ((text.drop 10).takeWhile isDigit).length = idlen at *
    obtain ⟨b, hb, htab⟩ := @load_terminated text (9 + 1 + idlen) (by omega)
    dsimp only
    rw [hb, Option.bind_some]
    by_cases hreply : b = tab ∧ id = our
    · have hsep := htab.mp hreply.1
      have hlt := (List.getElem?_eq_some_iff.mp hsep).1
      rw [if_pos hreply, if_pos ⟨hsep, hreply.2⟩, recvPayload_eq (by omega) h1 hout,
        show 10 + idlen + 1 = 11 + idlen by omega]
      rfl
    · rw [if_neg hreply, if_neg (fun h => hreply ⟨htab.mpr h.1, h.2⟩)]
      rfl

/-- Overlong lines are cut, and nothing is stored behind the end of the buffer. -/
theorem proxyRecvInLoop_eq (h1 : 1 ≤ outmax) (hout : outmax ≤ out.length) {line : LineBuf}
    (hline : line.items.length ≤ 511) (input : List UInt8) :
    proxyRecvInLoop below our out outmax line input =
      some ((recvBytes our line.items input).elim ⟨-1, out, []⟩ fun r =>
        ⟨(storePayload out r.1 outmax).1, (storePayload out r.1 outmax).2, r.2⟩) := by
  induction input generalizing line with
  | nil => rfl
  | cons c rest ih =>
    rw [proxyRecvInLoop, recvBytes, recvByte]
    by_cases hc : c = newline
    · rw [if_neg (not_not.mpr hc), if_neg (not_not.mpr hc), recvLine_eq hline h1 hout,
        Option.bind_some]
      cases acceptLine our line.items with
      | some payload => rfl
      | none => exact ih (by simp [Filled.empty])
    · rw [if_pos hc, if_pos hc]
      dsimp only
      split
      · next hroom =>
        have hpush : line.push c = some ⟨line.items ++ [c], line.length_succ_le (by omega) c⟩ :=
          dif_pos (by omega)
        rw [hpush, Option.bind_some, ih (by simp; omega)]
      · exact ih hline

/-! ## The grammar -/

/-- A reply to `our` with its payload, where `value` reads the digits of the id. -/
def ReplyLine (value : List UInt8 → Int) (our : Int) (text payload : List UInt8) : Prop :=
  ∃ ds, ds ≠ [] ∧ (∀ c ∈ ds, isDigit c = true) ∧
    text = proxyResTag ++ tab :: (ds ++ tab :: payload) ∧ value ds = our

theorem drop_of_getElem? {l : List UInt8} {n : ℕ} {c : UInt8} (h : l[n]? = some c) :
    l.drop n = c :: l.drop (n + 1) := by
  obtain ⟨hn, rfl⟩ := List.getElem?_eq_some_iff.mp h
  exact List.drop_eq_getElem_cons hn

/-- What stands between the separators is the id, and the payload is what is behind them. -/
theorem acceptLine_eq_some_iff {payload : List UInt8} :
    acceptLine our text = some payload ↔ ReplyLine readDigits our text payload := by
  constructor
  · intro h
    rw [acceptLine] at h
    split at h
    · next htest =>
      obtain ⟨-, htake, hsep⟩ := htest
      cases hread : readDecimal (text.drop 10) with
      | none => simp [hread] at h
      | some r =>
        obtain ⟨hne, rfl⟩ := readDecimal_eq_some hread
        simp only [hread] at h
        split at h
        · next hid =>
          obtain ⟨htab, hvalue⟩ := hid
          have hfront :=
            List.prefix_iff_eq_take.mp (List.takeWhile_prefix isDigit (l := text.drop 10))
          have hrest : text.drop 10 = (text.drop 10).takeWhile isDigit ++ tab :: payload := by
            rw [← List.getElem?_drop] at htab
            conv_lhs => rw [← List.take_append_drop
              ((text.drop 10).takeWhile isDigit).length (text.drop 10), ← hfront,
              drop_of_getElem? htab, List.drop_drop, ← Nat.add_assoc, Option.some.inj h]
          refine ⟨_, hne, fun c => List.mem_takeWhile_imp, ?_, hvalue⟩
          rw [← hrest, ← drop_of_getElem? hsep, ← htake, List.take_append_drop]
        · cases h
    · cases h
  · rintro ⟨ds, hne, hds, rfl, rfl⟩
    rw [acceptLine_digits hne hds, if_pos rfl]

/-! ## Statement -/

/-- Tag, tab, digits that denote `our`, tab, payload. -/
def IsReply (our : Int) (text payload : List UInt8) : Prop :=
  ReplyLine (fun ds => digitsValue ds) our text payload

/-- An id field of this line, as far as it is kept, has at most nine digits. -/
def ShortId (line : List UInt8) : Prop :=
  ∀ ds rest, (∀ c ∈ ds, isDigit c = true) →
    line.take 511 = proxyResTag ++ tab :: (ds ++ tab :: rest) → ds.length ≤ 9

/-- The first line of the input that is a reply as far as it is kept, with what is behind it. -/
def FirstReply (our : Int) (input payload rest : List UInt8) : Prop :=
  ∃ (skipped : List (List UInt8)) (line : List UInt8),
    input = skipped.flatMap (· ++ [newline]) ++ (line ++ newline :: rest) ∧
    (∀ l ∈ skipped, newline ∉ l ∧ ∀ p, ¬ IsReply our (l.take 511) p) ∧
    newline ∉ line ∧ IsReply our (line.take 511) payload

def NoReply (our : Int) (input : List UInt8) : Prop :=
  ∀ line ∈ completeLines newline input, ∀ p, ¬ IsReply our (line.take 511) p

/-- All accesses are in bounds; the first reply is received, cut to the buffer, and the input is
read up to its newline; without a reply the input is read to its end. -/
structure Demultiplexes (below : Bool) (fd our : Int) (out : List UInt8) (outmax : Int)
    (input : List UInt8) : Prop where
  inBounds : (proxyRecvIn below fd our (some out) outmax input).isSome = true
  reply : ∀ payload rest, FirstReply our input payload rest →
    ∃ sent, sent = payload.take (outmax - 1).toNat ∧
      proxyRecvIn below fd our (some out) outmax input =
        some ⟨sent.length, sent ++ 0 :: out.drop (sent.length + 1), rest⟩
  noReply : NoReply our input →
    proxyRecvIn below fd our (some out) outmax input = some ⟨-1, out, []⟩

/-- There is a first reply, or there is none. -/
theorem firstReply_or_noReply (our : Int) (input : List UInt8) :
    (∃ payload rest, FirstReply our input payload rest) ∨ NoReply our input := by
  induction input using lines_induction newline with
  | start text htext => exact Or.inr (by simp [NoReply, completeLines_of_not_mem newline htext])
  | line text rest htext ih =>
    by_cases hreply : ∃ p, IsReply our (text.take 511) p
    · obtain ⟨p, hp⟩ := hreply
      exact Or.inl ⟨p, rest, [], text, rfl, by simp, htext, hp⟩
    · rw [not_exists] at hreply
      refine ih.imp ?_ fun hno => ?_
      · rintro ⟨p, rest, skipped, line, rfl, hskipped, hline⟩
        exact ⟨p, rest, text :: skipped, line, by simp,
          List.forall_mem_cons.mpr ⟨⟨htext, hreply⟩, hskipped⟩, hline⟩
      · rw [NoReply, completeLines_cons newline htext]
        exact List.forall_mem_cons.mpr ⟨hreply, hno⟩

/-- On nine digits the number read is the number denoted. -/
theorem acceptLine_take_iff {line payload : List UInt8} (hshort : ShortId line) :
    acceptLine our (line.take 511) = some payload ↔ IsReply our (line.take 511) payload := by
  rw [acceptLine_eq_some_iff]
  refine exists_congr fun ds => and_congr_right fun hne => and_congr_right fun hds =>
    and_congr_right fun heq => ?_
  rw [readDigits_eq_digitsValue hds (hshort ds payload hds heq)]

theorem acceptLine_take_eq_none {line : List UInt8} (hshort : ShortId line)
    (h : ∀ p, ¬ IsReply our (line.take 511) p) : acceptLine our (line.take 511) = none := by
  cases haccept : acceptLine our (line.take 511) with
  | none => rfl
  | some p => exact absurd ((acceptLine_take_iff hshort).mp haccept) (h p)

theorem recvBytes_of_firstReply {input payload rest : List UInt8}
    (hids : ∀ line ∈ completeLines newline input, ShortId line)
    (h : FirstReply our input payload rest) :
    recvBytes our [] input = some (payload, rest) := by
  obtain ⟨skipped, line, rfl, hskipped, hline, hreply⟩ := h
  induction skipped with
  | nil =>
    have hshort := hids line (by simp [completeLines_cons newline hline])
    rw [List.flatMap_nil, List.nil_append, recvBytes_line our hline,
      (acceptLine_take_iff hshort).mpr hreply]
    rfl
  | cons l skipped ih =>
    obtain ⟨⟨hl, hno⟩, hskipped⟩ := List.forall_mem_cons.mp hskipped
    rw [List.flatMap_cons, List.append_assoc, List.append_assoc, List.singleton_append] at hids ⊢
    rw [completeLines_cons newline hl] at hids
    obtain ⟨hshort, hids⟩ := List.forall_mem_cons.mp hids
    rw [recvBytes_line our hl, acceptLine_take_eq_none hshort hno]
    exact ih hids hskipped

theorem recvBytes_of_noReply {input : List UInt8}
    (hids : ∀ line ∈ completeLines newline input, ShortId line) (h : NoReply our input) :
    recvBytes our [] input = none := by
  induction input using lines_induction newline with
  | start text htext =>
    rw [← List.append_nil text, recvBytes_append htext (by simp)]
    rfl
  | line text rest htext ih =>
    rw [NoReply, completeLines_cons newline htext] at h
    rw [completeLines_cons newline htext] at hids
    obtain ⟨hno, hrest⟩ := List.forall_mem_cons.mp h
    obtain ⟨hshort, hids⟩ := List.forall_mem_cons.mp hids
    rw [recvBytes_line our htext, acceptLine_take_eq_none hshort hno]
    exact ih hids hrest

/-- What is received is what the grammar says. -/
theorem proxyRecvIn_demultiplexes (below : Bool) {fd : Int} (hfd : 0 ≤ fd) (our : Int)
    {out : List UInt8} {outmax : Int} (h1 : 1 ≤ outmax) (hout : outmax ≤ out.length)
    {input : List UInt8} (hids : ∀ line ∈ completeLines newline input, ShortId line) :
    Demultiplexes below fd our out outmax input := by
  have hrecv : proxyRecvIn below fd our (some out) outmax input =
      some ((recvBytes our [] input).elim ⟨-1, out, []⟩ fun r =>
        ⟨(storePayload out r.1 outmax).1, (storePayload out r.1 outmax).2, r.2⟩) := by
    rw [proxyRecvIn, Option.elim_some, if_neg (by omega)]
    exact proxyRecvInLoop_eq h1 hout (by simp [Filled.empty]) input
  constructor
  · rw [hrecv]
    rfl
  · intro payload rest hfirst
    refine ⟨_, rfl, ?_⟩
    rw [hrecv, recvBytes_of_firstReply hids hfirst]
    rfl
  · intro hno
    rw [hrecv, recvBytes_of_noReply hids hno]
    rfl

theorem shortId_of_length {line : List UInt8} (h : line.length ≤ 20) : ShortId line := by
  intro ds rest _ heq
  have htag : proxyResTag.length = 9 := by decide
  have hlen := congrArg List.length heq
  simp only [List.length_take, List.length_append, List.length_cons, htag] at hlen
  omega

/-- Noise, a reply to another process, and the reply. -/
def sampleInput : List UInt8 :=
  (CString.lit "$ \nPROXY_RES\t6\tno\nPROXY_RES\t7\tyes\n#").bytes

theorem proxyRecvIn_demultiplexes_sample :
    Demultiplexes true 3 7 (.replicate 4 9) 3 sampleInput :=
  proxyRecvIn_demultiplexes true (by decide) 7 (by decide) (by decide) fun _ hline =>
    shortId_of_length
      ((by decide : ∀ line ∈ completeLines newline sampleInput, line.length ≤ 20) _ hline)

example : proxyRecvIn true 3 7 (some (.replicate 4 9)) 3 sampleInput =
    some ⟨2, (CString.lit "ye").bytes ++ [0, 9], (CString.lit "#").bytes⟩ := by
  decide

end LiberalOS.Proxy
