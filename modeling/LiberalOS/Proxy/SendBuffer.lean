import LiberalOS.Foundation.BoundedBuffer
import LiberalOS.Proxy.Client

/-!
# The frame buffer of `proxy_send`

`proxy_send` of `user/proxy_client.h` with every store checked against its 640-byte buffer. Without
the checks it writes the `requestLine`, whatever the length of that.

## Main results

* `proxyFrame_eq` — the stores stay inside exactly if the line has at most 640 bytes.
* `proxySend_within_iff` — the roles with which they do.
-/
namespace LiberalOS.Proxy
open Foundation

/-! ## Sending -/

/-- `char buf[640]` up to `pos`. -/
abbrev FrameBuf := Filled UInt8 640

/-- `_proxy_append_str`. -/
def FrameBuf.appendStr (buf : FrameBuf) (max : ℕ) (s : List UInt8) : Option FrameBuf :=
  buf.pushUpTo (max - 1) s

/-- `_proxy_append_int`; the digits come out of `tmp`. -/
def FrameBuf.appendInt (buf : FrameBuf) (v : Int) : Option FrameBuf :=
  if v < 0 then (buf.push 45).bind fun buf => buf.pushAll (decimal (-v).toNat)
  else buf.pushAll (decimal v.toNat)

/-- The line as `proxy_send` builds it, or `none` when a store is behind the end of the buffer. -/
def proxyFrame (pid : ℕ) (role prompt : CString) : Option FrameBuf := do
  let buf ← FrameBuf.appendStr .empty 640 proxyReqTag
  let buf ← buf.push tab
  let buf ← FrameBuf.appendInt buf pid
  let buf ← buf.push tab
  let buf ← FrameBuf.appendStr buf 640 role.bytes
  let buf ← buf.push tab
  let buf ← FrameBuf.appendStr buf 640 prompt.bytes
  buf.push newline

/-- The return value and what is passed to `write`. A null pointer is `none`. -/
def proxySend (fd : Int) (pid : ℕ) (role prompt : Option CString) :
    Option (Int × Option FrameBuf) :=
  match role, prompt with
  | some role, some prompt =>
    if fd < 0 then some (-1, none) else (proxyFrame pid role prompt).map fun buf => (0, some buf)
  | _, _ => some (-1, none)

/-! ## The line and the buffer -/

theorem appends_appendStr (max : ℕ) (s : List UInt8) :
    Filled.Appends (fun buf : FrameBuf => buf.appendStr max s)
      fun buf => proxyAppendStr max buf s :=
  Filled.appends_pushUpTo (max - 1) s

theorem appends_appendInt (v : Int) :
    Filled.Appends (fun buf : FrameBuf => buf.appendInt v) fun buf => proxyAppendInt buf v := by
  unfold FrameBuf.appendInt proxyAppendInt
  split
  · have hcomp := (@Filled.appends_push UInt8 640 45).comp
      (Filled.appends_pushAll (decimal (-v).toNat))
    simp only [List.append_assoc, List.singleton_append] at hcomp
    exact hcomp
  · exact Filled.appends_pushAll _

/-- The checks fail exactly if the line is longer than the buffer. -/
theorem proxyFrame_eq (pid : ℕ) (role prompt : CString) :
    proxyFrame pid role prompt = Filled.ofList? (requestLine pid role prompt) :=
  ((appends_appendStr 640 proxyReqTag).comp <| (Filled.appends_push tab).comp <|
    (appends_appendInt pid).comp <| (Filled.appends_push tab).comp <|
    (appends_appendStr 640 role.bytes).comp <| (Filled.appends_push tab).comp <|
    (appends_appendStr 640 prompt.bytes).comp <| Filled.appends_push newline).eq .empty

/-- The part of the role that is appended, while the position is below 639. -/
def sentRole (pid : ℕ) (role : CString) : List UInt8 :=
  role.bytes.take (628 - (decimal pid).length)

/-- The part of the prompt that is appended. -/
def sentPrompt (pid : ℕ) (role prompt : CString) : List UInt8 :=
  prompt.bytes.take (627 - (decimal pid).length - (sentRole pid role).length)

theorem requestLine_eq_sent (pid : ℕ) (role prompt : CString) :
    requestLine pid role prompt = proxyReqTag ++ tab :: (decimal pid ++ tab ::
      (sentRole pid role ++ tab :: (sentPrompt pid role prompt ++ [newline]))) := by
  have htag : proxyReqTag.length = 9 := by decide
  have hhead : proxyAppendStr 640 [] proxyReqTag = proxyReqTag := by decide
  have hint : proxyAppendInt (proxyReqTag ++ [tab]) pid = proxyReqTag ++ [tab] ++ decimal pid := by
    simp [proxyAppendInt]
  have hrole : proxyAppendStr 640 (proxyReqTag ++ [tab] ++ decimal pid ++ [tab]) role.bytes =
      proxyReqTag ++ [tab] ++ decimal pid ++ [tab] ++ sentRole pid role := by
    rw [proxyAppendStr, sentRole]
    congr 2
    simp [htag]
    omega
  have hprompt : proxyAppendStr 640 (proxyReqTag ++ [tab] ++ decimal pid ++ [tab] ++
      sentRole pid role ++ [tab]) prompt.bytes = proxyReqTag ++ [tab] ++ decimal pid ++ [tab] ++
        sentRole pid role ++ [tab] ++ sentPrompt pid role prompt := by
    rw [proxyAppendStr, sentPrompt]
    congr 2
    simp [htag]
    omega
  rw [requestLine, hhead, hint, hrole, hprompt]
  simp

/-- The first 639 bytes are for the tag, the id, the role and the prompt, so the role alone can
leave no room for the separator and the newline. -/
theorem length_requestLine_le_iff (pid : ℕ) (role prompt : CString) :
    (requestLine pid role prompt).length ≤ 640 ↔
      role.length + (decimal pid).length ≤ 627 := by
  have htag : proxyReqTag.length = 9 := by decide
  have hid := length_decimal_le pid
  rw [requestLine_eq_sent, CString.length]
  simp only [List.length_append, List.length_cons, List.length_nil, htag, sentPrompt, sentRole,
    List.length_take]
  omega

/-! ## Statement -/

/-- A line with its three separators and its newline. -/
def IsFrame (pid : ℕ) (role prompt : CString) (bytes : List UInt8) : Prop :=
  ∃ r p, r <+: role.bytes ∧ p <+: prompt.bytes ∧
    bytes = proxyReqTag ++ tab :: (decimal pid ++ tab :: (r ++ tab :: (p ++ [newline])))

/-- All stores are inside the buffer, and what is passed to `write` is a line that fits it. -/
def SendsWithin (fd : Int) (pid : ℕ) (role prompt : CString) : Prop :=
  ∃ ret written, proxySend fd pid (some role) (some prompt) = some (ret, written) ∧
    ∀ buf ∈ written, buf.items.length ≤ 640 ∧ IsFrame pid role prompt buf.items

theorem isFrame_requestLine (pid : ℕ) (role prompt : CString) :
    IsFrame pid role prompt (requestLine pid role prompt) :=
  ⟨_, _, List.take_prefix _ _, List.take_prefix _ _, requestLine_eq_sent pid role prompt⟩

/-- The checks that matter are those on the length of the line. -/
theorem sendsWithin_iff_length (fd : Int) (pid : ℕ) (role prompt : CString) :
    SendsWithin fd pid role prompt ↔ fd < 0 ∨ (requestLine pid role prompt).length ≤ 640 := by
  by_cases hfd : fd < 0
  · have hsend : proxySend fd pid (some role) (some prompt) = some (-1, none) := if_pos hfd
    exact iff_of_true ⟨_, _, hsend, by simp⟩ (Or.inl hfd)
  have hsend : proxySend fd pid (some role) (some prompt) =
      (Filled.ofList? (requestLine pid role prompt)).map fun buf => ((0 : Int), some buf) := by
    rw [← proxyFrame_eq]
    exact if_neg hfd
  constructor
  · rintro ⟨ret, written, hwrites, -⟩
    rw [hsend, Option.map_eq_some_iff] at hwrites
    obtain ⟨buf, hbuf, -⟩ := hwrites
    exact Or.inr (Filled.ofList?_eq_some_iff.mp hbuf ▸ buf.fits)
  · intro h
    have hfits := h.resolve_left hfd
    refine ⟨0, some ⟨_, hfits⟩, ?_, fun buf hbuf => ?_⟩
    · rw [hsend, Filled.ofList?_of_le hfits]
      rfl
    · obtain rfl := Option.mem_some_iff.mp hbuf
      exact ⟨hfits, isFrame_requestLine pid role prompt⟩

/-- The reserve of `_proxy_append_str` is a byte short of the separator and the newline behind a
role that fills the buffer. -/
theorem proxySend_within_iff (fd : Int) {pid : ℕ} (hpos : 1 ≤ pid) (hpid : pid < 2 ^ 31)
    (role prompt : CString) : SendsWithin fd pid role prompt ↔
      fd < 0 ∨ role.length + (Nat.digits 10 pid).length ≤ 627 := by
  rw [sendsWithin_iff_length, length_requestLine_le_iff, length_decimal hpos (by omega)]

theorem proxySend_within_short : SendsWithin 3 7 (.lit "parser") (.lit "line") :=
  (proxySend_within_iff 3 (by decide) (by decide) (.lit "parser") (.lit "line")).mpr
    (Or.inr (by rw [Nat.digits_of_lt 10 7 (by decide) (by decide)]; decide))

/-- A role of 627 bytes and an id of one digit. -/
theorem proxySend_overflow : ¬ ∀ (fd : Int) (pid : ℕ), 1 ≤ pid → pid < 2 ^ 31 →
    ∀ role prompt : CString, SendsWithin fd pid role prompt := by
  intro h
  have hfree : (0 : UInt8) ∉ List.replicate 627 120 :=
    fun hmem => absurd (List.eq_of_mem_replicate hmem) (by decide)
  have hsends :=
    h 3 1 (by decide) (by decide) ⟨List.replicate 627 120, hfree⟩ ⟨[], List.not_mem_nil⟩
  rw [sendsWithin_iff_length, length_requestLine_le_iff] at hsends
  have hrole : CString.length ⟨List.replicate 627 120, hfree⟩ = 627 := List.length_replicate
  have hid : (decimal 1).length = 1 := by decide
  omega

end LiberalOS.Proxy
