import LiberalOS.Foundation.Utf8
import LiberalOS.Proxy.System

/-!
# The wire codec of guest and host

The daemon works on text: it collects the bytes of a line, decodes them and splits the text at
tabs, and what it sends is encoded again. The guest works on bytes with bounded buffers. Inside the
bounds the two read what the other wrote.

`parseRequest` is the daemon's parse on bytes; on valid UTF-8 it finds what the parse of the text
finds.

## Main results

* `codec_round_trip` — requests and responses arrive as they were sent.
* `parseRequest_utf8Encode` — the two parses of a request agree.
-/
namespace LiberalOS.Proxy
open Foundation

/-! ## The daemon on text -/

/-- `PROXY_REQ_TAG` and `PROXY_RES_TAG` of the daemon. -/
def reqTagText : List Char := "PROXY_REQ".toList
def resTagText : List Char := "PROXY_RES".toList

/-- `text.split(sep, n)`: at most `n` splits, from the left. -/
def splitMax (sep : Char) : Nat → List Char → List (List Char)
  | 0, text => [text]
  | n + 1, text =>
    match text.dropWhile (· != sep) with
    | [] => [text]
    | _ :: rest => text.takeWhile (· != sep) :: splitMax sep n rest

structure HostRequest where
  id : List Char
  role : List Char
  prompt : List Char
  deriving DecidableEq

/-- The frame in a line: a line that starts with the tag and splits into four parts. -/
def hostFrame (text : List Char) : Option HostRequest :=
  if (reqTagText ++ ['\t']).isPrefixOf text then
    match splitMax '\t' 3 text with
    | [_, id, role, prompt] => some ⟨id, role, prompt⟩
    | _ => none
  else none

/-- The frames in the bytes the daemon reads, with what it has of the current line. -/
def hostLines : List UInt8 → List UInt8 → List HostRequest
  | _, [] => []
  | line, b :: rest =>
    if b ≠ newline then hostLines (line ++ [b]) rest
    else (hostFrame (decodeReplace line)).toList ++ hostLines [] rest

/-- `ch.send` of the reply to a request. -/
def hostSend (id reply : List Char) : List UInt8 :=
  utf8Encode (resTagText ++ '\t' :: (id ++ '\t' :: (reply ++ ['\n'])))

/-- `proxy_recv` with these bytes to read, once it has the console and a buffer: the result, the
buffer and the bytes left; `none` while it waits. -/
def proxyRecv (our : Int) (out : List UInt8) (outmax : Int) (input : List UInt8) :
    Option (Int × List UInt8 × List UInt8) :=
  if outmax ≤ 0 then some (-1, out, input)
  else
    (recvBytes our [] input).map fun r =>
      let w := storePayload out r.1 outmax
      (w.1, w.2, r.2)

/-! ## The text of an id -/

theorem utf8EncodeChar_digitChar {d : Nat} (hd : d < 10) :
    String.utf8EncodeChar d.digitChar = [digit d] := by
  revert d
  decide

/-- The digits `_proxy_append_int` writes are those of the number. -/
theorem lowDigits_eq_toDigits {fuel v : Nat} (hv : 0 < v) (hfuel : v < 10 ^ fuel) :
    (lowDigits fuel v).reverse = utf8Encode (Nat.toDigits 10 v) := by
  induction fuel generalizing v with
  | zero => omega
  | succ fuel ih =>
    rw [lowDigits, if_neg (by omega), List.reverse_cons]
    have hdig := utf8EncodeChar_digitChar (Nat.mod_lt v (by decide : 0 < 10))
    by_cases hlt : v < 10
    · have hdiv : v / 10 = 0 := by omega
      have hmod : v % 10 = v := by omega
      rw [hdiv, hmod, Nat.toDigits_of_lt_base hlt, utf8Encode_cons,
        utf8EncodeChar_digitChar hlt]
      cases fuel <;> rfl
    · have hdiv : v / 10 < 10 ^ fuel := by
        rw [Nat.pow_succ] at hfuel
        omega
      have hsplit : Nat.toDigits 10 v = Nat.toDigits 10 (v / 10) ++ [(v % 10).digitChar] :=
        Nat.toDigits_of_base_le (by decide) (by omega)
      rw [ih (by omega) hdiv, hsplit, utf8Encode_append, utf8Encode_cons, hdig]
      rfl

theorem utf8Encode_repr {v : Nat} (hv : v < 2147483648) :
    utf8Encode v.repr.toList = decimal v := by
  rw [Nat.toList_repr, decimal]
  split
  · next h => subst h; decide
  · exact (lowDigits_eq_toDigits (by omega) (hv.trans (by decide))).symm

/-! ## Requests -/

theorem splitMax_append {sep : Char} {a : List Char} (ha : sep ∉ a) (n : Nat) (b : List Char) :
    splitMax sep (n + 1) (a ++ sep :: b) = a :: splitMax sep n b := by
  have hpass := bne_of_not_mem ha
  simp [splitMax, List.dropWhile_append_of_pos hpass, List.takeWhile_append_of_pos hpass]

theorem hostLines_append {text : List UInt8} (htext : newline ∉ text) (line rest : List UInt8) :
    hostLines line (text ++ newline :: rest) =
      (hostFrame (decodeReplace (line ++ text))).toList ++ hostLines [] rest := by
  induction text generalizing line with
  | nil => simp [hostLines]
  | cons b text ih =>
    have hb : b ≠ newline := fun h => htext (h ▸ List.mem_cons_self)
    have hrest : newline ∉ text := fun h => htext (List.mem_cons_of_mem _ h)
    rw [List.cons_append, hostLines, if_pos hb, ih hrest, List.append_assoc, List.singleton_append]

/-- The text of a request line. -/
def frameText (r : HostRequest) : List Char :=
  reqTagText ++ '\t' :: (r.id ++ '\t' :: (r.role ++ '\t' :: r.prompt))

theorem hostFrame_frameText {r : HostRequest} (hid : '\t' ∉ r.id) (hrole : '\t' ∉ r.role) :
    hostFrame (frameText r) = some r := by
  have htag : '\t' ∉ reqTagText := by decide
  have hpre : (reqTagText ++ ['\t']).isPrefixOf (frameText r) = true := by
    rw [List.isPrefixOf_iff_prefix]
    exact ⟨r.id ++ '\t' :: (r.role ++ '\t' :: r.prompt), List.append_assoc _ _ _⟩
  rw [hostFrame, if_pos hpre, frameText, splitMax_append htag, splitMax_append hid,
    splitMax_append hrole]
  rfl

/-- The guest's line is the encoded text of the daemon's. -/
theorem requestText_eq {pid : Nat} (hpid : pid < 2147483648) {role prompt : CString}
    {r p : List Char} (hr : role.bytes = utf8Encode r) (hp : prompt.bytes = utf8Encode p) :
    requestText pid role prompt = utf8Encode (frameText ⟨pid.repr.toList, r, p⟩) := by
  have htag : utf8Encode reqTagText = proxyReqTag := by decide
  have htab : String.utf8EncodeChar '\t' = [tab] := by decide
  simp only [requestText, frameText, utf8Encode_append, utf8Encode_cons, htag, htab,
    utf8Encode_repr hpid, hr, hp, List.singleton_append]

theorem newline_not_mem_utf8Encode {cs : List Char} (h : '\n' ∉ cs) : newline ∉ utf8Encode cs :=
  fun hmem => h ((mem_utf8Encode_ascii (by decide) cs).mp hmem)

/-! ## The parse on bytes -/

/-- A request as the parse on bytes has it. -/
def HostRequest.encode (r : HostRequest) : ParsedRequest :=
  ⟨utf8Encode r.id, utf8Encode r.role, utf8Encode r.prompt⟩

theorem splitMax_of_not_mem {sep : Char} {a : List Char} (ha : sep ∉ a) (n : Nat) :
    splitMax sep (n + 1) a = [a] := by
  have hpass : a.dropWhile (· != sep) = [] :=
    List.dropWhile_eq_nil_iff.mpr (bne_of_not_mem ha)
  simp [splitMax, hpass]

theorem tab_not_mem_utf8Encode {cs : List Char} (h : '\t' ∉ cs) : tab ∉ utf8Encode cs :=
  fun hmem => h ((mem_utf8Encode_ascii (by decide) cs).mp hmem)

theorem splitTab_of_not_mem {bs : List UInt8} (h : tab ∉ bs) : splitTab bs = none := by
  have hpass : bs.dropWhile (· != tab) = [] :=
    List.dropWhile_eq_nil_iff.mpr (bne_of_not_mem h)
  simp [splitTab, hpass]

theorem splitTab_utf8Encode {a : List Char} (ha : '\t' ∉ a) (b : List Char) :
    splitTab (utf8Encode (a ++ '\t' :: b)) = some (utf8Encode a, utf8Encode b) := by
  have htab : String.utf8EncodeChar '\t' = [tab] := by decide
  rw [utf8Encode_append, utf8Encode_cons, htab]
  exact splitTab_append (tab_not_mem_utf8Encode ha) _

/-- Behind the tag both parses split off the id and the role, or find too few tabs. -/
theorem splits_agree (ds : List Char) :
    ((splitTab (utf8Encode ds)).bind fun id =>
      (splitTab id.2).map fun role => (⟨id.1, role.1, role.2⟩ : ParsedRequest)) =
    (match reqTagText :: splitMax '\t' 2 ds with
      | [_, id, role, prompt] => some (⟨id, role, prompt⟩ : HostRequest)
      | _ => none).map HostRequest.encode := by
  by_cases hid : '\t' ∈ ds
  · obtain ⟨id, rest, rfl, hno⟩ := List.eq_append_cons_of_mem hid
    rw [splitTab_utf8Encode hno, splitMax_append hno, Option.bind_some]
    by_cases hrole : '\t' ∈ rest
    · obtain ⟨role, prompt, rfl, hno⟩ := List.eq_append_cons_of_mem hrole
      rw [splitTab_utf8Encode hno, splitMax_append hno]
      rfl
    · rw [splitTab_of_not_mem (tab_not_mem_utf8Encode hrole), splitMax_of_not_mem hrole]
      rfl
  · rw [splitTab_of_not_mem (tab_not_mem_utf8Encode hid), splitMax_of_not_mem hid]
    rfl

/-- On valid UTF-8 the parse on bytes finds the request the daemon finds in the text. -/
theorem parseRequest_utf8Encode (cs : List Char) :
    parseRequest (utf8Encode cs) = (hostFrame cs).map HostRequest.encode := by
  have htag : utf8Encode (reqTagText ++ ['\t']) = proxyReqTag ++ [tab] := by decide
  have hlen : (proxyReqTag ++ [tab]).length = 10 := by decide
  by_cases hpre : (utf8Encode cs).take 10 = proxyReqTag ++ [tab]
  · have hascii : ∀ b ∈ proxyReqTag ++ [tab], b < 128 := ascii_of_all (by decide)
    have happ : utf8Encode cs = (proxyReqTag ++ [tab]) ++ (utf8Encode cs).drop 10 := by
      rw [← hpre, List.take_append_drop]
    obtain ⟨ds, hcs, hds⟩ := utf8Encode_eq_append hascii happ
    have htext : asciiText (proxyReqTag ++ [tab]) = reqTagText ++ ['\t'] := by decide
    have hprefix : (reqTagText ++ ['\t']).isPrefixOf cs = true := by
      rw [List.isPrefixOf_iff_prefix, hcs, htext]
      exact List.prefix_append _ _
    have hsplit : splitMax '\t' 3 cs = reqTagText :: splitMax '\t' 2 ds := by
      rw [hcs, htext, List.append_assoc]
      exact splitMax_append (by decide) 2 ds
    rw [parseRequest, if_pos hpre, ← hds, hostFrame, if_pos hprefix, hsplit]
    exact splits_agree ds
  · have hprefix : ¬ (reqTagText ++ ['\t']).isPrefixOf cs = true := by
      intro h
      obtain ⟨ds, rfl⟩ := List.isPrefixOf_iff_prefix.mp h
      apply hpre
      rw [utf8Encode_append, htag, ← hlen, List.take_left]
    rw [parseRequest, if_neg hpre, hostFrame, if_neg hprefix]
    rfl

/-! ## Responses -/

theorem hostSend_eq_responseLine (id reply : List Char) :
    hostSend id reply = responseLine (utf8Encode id) (utf8Encode reply) := by
  have htag : utf8Encode resTagText = proxyResTag := by decide
  have htab : String.utf8EncodeChar '\t' = [tab] := by decide
  have hnl : String.utf8EncodeChar '\n' = [newline] := by decide
  simp only [hostSend, responseLine, utf8Encode_append, utf8Encode_cons, utf8Encode_nil, htag,
    htab, hnl, List.singleton_append]

theorem hostSend_eq {pid : Nat} (hpid : pid < 2147483648) (reply : List Char) :
    hostSend pid.repr.toList reply = responseLine (decimal pid) (utf8Encode reply) := by
  rw [hostSend_eq_responseLine, utf8Encode_repr hpid]

theorem length_hostSend {pid : Nat} (hpid : pid < 2147483648) (reply : List Char) :
    (hostSend pid.repr.toList reply).length =
      12 + (decimal pid).length + (utf8Encode reply).length := by
  have htag : proxyResTag.length = 9 := by decide
  rw [hostSend_eq hpid]
  simp [responseLine, htag]
  omega

/-- A reply that fits the line buffer is stored as far as `out` goes. -/
theorem proxyRecv_hostSend {pid : Nat} (hpid : pid < 2147483648) {reply : List Char}
    (hline : '\n' ∉ reply) (hfits : (hostSend pid.repr.toList reply).length ≤ 512)
    (out rest : List UInt8) {outmax : Int} (hmax : 1 ≤ outmax) :
    proxyRecv pid out outmax (hostSend pid.repr.toList reply ++ rest) =
      some (min ((utf8Encode reply).length : Int) (outmax - 1),
        (utf8Encode reply).take (outmax - 1).toNat ++
          0 :: out.drop (min (utf8Encode reply).length (outmax - 1).toNat + 1), rest) := by
  have hcut : (utf8Encode reply).take (500 - (decimal pid).length) = utf8Encode reply := by
    rw [length_hostSend hpid] at hfits
    exact List.take_of_length_le (by omega)
  have hlen : ((utf8Encode reply).take (outmax - 1).toNat).length =
      min (utf8Encode reply).length (outmax - 1).toNat := by
    rw [List.length_take, Nat.min_comm]
  rw [proxyRecv, if_neg (by omega), hostSend_eq hpid,
    recvBytes_responseLine hpid (newline_not_mem_utf8Encode hline), hcut, Option.map_some]
  have hret : ((min (utf8Encode reply).length (outmax - 1).toNat : Nat) : Int) =
      min ((utf8Encode reply).length : Int) (outmax - 1) := by
    omega
  simp only [storePayload, hlen, hret]

/-- A reply to another process is read and dropped. -/
theorem proxyRecv_hostSend_of_ne {pid other : Nat} (hpid : pid < 2147483648) (hne : other ≠ pid)
    {reply : List Char} (hline : '\n' ∉ reply) (out rest : List UInt8) {outmax : Int}
    (hmax : 1 ≤ outmax) :
    proxyRecv other out outmax (hostSend pid.repr.toList reply ++ rest) =
      proxyRecv other out outmax rest := by
  have hid : (pid : Int) ≠ other := by omega
  rw [proxyRecv, if_neg (by omega), hostSend_eq hpid,
    recvBytes_response hpid _ (newline_not_mem_utf8Encode hline), if_neg hid, proxyRecv,
    if_neg (by omega)]

/-! ## Both directions -/

/-- Inside the bounds of the buffers the daemon finds the process, the role and the prompt of a
request, the process gets the reply as far as `out` goes, and every other one skips it. -/
theorem codec_round_trip {pid : Nat} (hpid : pid < 2147483648) :
    (∀ (role prompt : CString) (r p : List Char),
      role.bytes = utf8Encode r → prompt.bytes = utf8Encode p →
      '\n' ∉ r → '\n' ∉ p → '\t' ∉ r → (requestText pid role prompt).length + 1 ≤ 640 →
      ∀ rest, hostLines [] (requestLine pid role prompt ++ rest) =
        ⟨pid.repr.toList, r, p⟩ :: hostLines [] rest) ∧
    ∀ reply : List Char, '\n' ∉ reply → (hostSend pid.repr.toList reply).length ≤ 511 + 1 →
      ∀ (out rest : List UInt8) (outmax : Int), 1 ≤ outmax →
      proxyRecv pid out outmax (hostSend pid.repr.toList reply ++ rest) =
        some (min ((utf8Encode reply).length : Int) (outmax - 1),
          (utf8Encode reply).take (outmax - 1).toNat ++
            0 :: out.drop (min (utf8Encode reply).length (outmax - 1).toNat + 1), rest) ∧
      ∀ other : Nat, other ≠ pid →
        proxyRecv other out outmax (hostSend pid.repr.toList reply ++ rest) =
          proxyRecv other out outmax rest := by
  constructor
  · intro role prompt r p hr hp hrline hpline htab hfits rest
    have hid : '\t' ∉ pid.repr.toList := by
      intro hmem
      have hbyte := (mem_utf8Encode_ascii (b := tab) (by decide) _).mpr hmem
      rw [utf8Encode_repr hpid] at hbyte
      exact tab_not_mem_decimal pid hbyte
    have hline : newline ∉ requestText pid role prompt :=
      newline_not_mem_requestText (hr ▸ newline_not_mem_utf8Encode hrline)
        (hp ▸ newline_not_mem_utf8Encode hpline)
    rw [requestLine_of_fits (by omega), List.append_assoc, List.singleton_append,
      hostLines_append hline, List.nil_append, requestText_eq hpid hr hp,
      decodeReplace_utf8Encode, hostFrame_frameText hid htab]
    rfl
  · intro reply hline hfits out rest outmax hmax
    exact ⟨proxyRecv_hostSend hpid hline hfits out rest hmax,
      fun other hne => proxyRecv_hostSend_of_ne hpid hne hline out rest hmax⟩

/-- Process 7 asks "café" and a tab as role "r" and reads the first two bytes of "né", which is
cut inside a character. -/
theorem cafe_round_trip :
    hostLines [] (requestLine 7 ⟨utf8Encode ['r'], by decide⟩
        ⟨utf8Encode ['c', 'a', 'f', 'é', '\t', '?'], by decide⟩ ++ []) =
      [⟨['7'], ['r'], ['c', 'a', 'f', 'é', '\t', '?']⟩] ∧
    proxyRecv 7 [1, 2, 3] 3 (hostSend ['7'] ['n', 'é'] ++ []) = some (2, [110, 0xC3, 0], []) ∧
    proxyRecv 8 [1, 2, 3] 3 (hostSend ['7'] ['n', 'é'] ++ []) = none := by
  have hid : (7 : Nat).repr.toList = ['7'] := by decide
  have h := codec_round_trip (by decide : 7 < 2147483648)
  rw [hid] at h
  have hres := h.2 ['n', 'é'] (by decide) (by decide) [1, 2, 3] [] 3 (by decide)
  exact ⟨h.1 _ _ ['r'] ['c', 'a', 'f', 'é', '\t', '?'] rfl rfl (by decide) (by decide)
    (by decide) (by decide) [], hres.1, hres.2 8 (by decide)⟩

end LiberalOS.Proxy
