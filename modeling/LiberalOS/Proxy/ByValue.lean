import LiberalOS.Proxy.Answer
import LiberalOS.Proxy.ShortCircuit

/-!
# The call by value

`proxyCall` works on the strings and the buffer of its caller, `proxyCallMem` on the memory they
stand in. For a caller whose strings are readable and whose buffer is writable and apart from them,
both return the same and leave the same cache.

## Main results

* `proxyCallMem_refines` — the call on memory is the call by value.
-/
namespace LiberalOS.Proxy
open Foundation Kernel Cache

/-! ## User code on mapped memory -/

theorem touch_of_byteAt {env : AllocEnv} {vm : AddressSpace} {a : Nat} {b : UInt8}
    (h : byteAt vm a = some b) : touch env vm a = some vm := by
  obtain ⟨page, hpage, -⟩ := Option.map_eq_some_iff.mp h
  rw [touch, hpage]

/-- The loads of a string that is there. -/
theorem loadString_eq {env : AllocEnv} {vm : AddressSpace} {a : Nat} {s : List UInt8}
    (h : UserString vm a s) (fuel : Nat) : loadString env fuel vm a = some (s.take fuel, vm) := by
  induction fuel generalizing a s with
  | zero => simp [loadString]
  | succ fuel ih =>
    cases s with
    | nil =>
      have hbyte : byteAt vm a = some 0 := h
      simp [loadString, touch_of_byteAt hbyte, hbyte]
    | cons b s => simp [loadString, touch_of_byteAt h.2.1, h.2.1, h.1, ih h.2.2]

/-- The end of the hit path, when role and buffer hold strings. -/
theorem hitReturn_eq {env : AllocEnv} {fd : Bool} {vm : AddressSpace} {role out : Nat}
    {rs s : List UInt8} (hrole : UserString vm role rs) (hout : UserString vm out s) :
    hitReturn env fd vm role out = some s.length := by
  have hlen := hout.lt_maxva
  have hload : (loadString env maxva vm out).map (fun r => r.1.length) = some s.length := by
    rw [loadString_eq hout, List.take_of_length_le (by omega), Option.map_some]
  unfold hitReturn
  split
  · rw [loadString_eq hrole]
    exact hload
  · exact hload

/-- On bytes that are all there, `proxy_recv` ends as the loop over bytes does. -/
theorem recvInput_map_some (our : Int) (line bs : List UInt8) :
    recvInput our line (bs.map some) =
      match recvBytes our line bs with
      | some r => .payload r.1
      | none => .blocked := by
  induction bs generalizing line with
  | nil => rfl
  | cons c bs ih =>
    simp only [List.map_cons, recvInput, recvBytes]
    cases recvByte our line c with
    | more line => exact ih line
    | done payload => rfl

/-! ## The call -/

/-- The `cacheset` at the end of a call that has received this payload. -/
def cachesetMem (bmap : Nat → Bool) (junk : CacheSlot) (x : CallInput) (payload : List UInt8) :
    Int × CacheState :=
  let text := payload.take (argint x.outmax - 1).toNat
  let vm := (copyout x.env x.cacheget.vm x.out (text ++ [0])).2
  sysCacheset bmap junk vm x.cacheget.st x.role x.prompt x.out

/-- The cache after a call. -/
def cacheAfterCall (bmap : Nat → Bool) (junk : CacheSlot) (x : CallInput) : CacheState :=
  match (proxyCallMem x).frame, (proxyCallMem x).fin with
  | some payload, .returned _ => (cachesetMem bmap junk x payload).2
  | _, _ => x.cacheget.st

/-- The arguments of the call stand in the memory of its process, apart from each other as far as
they are written. -/
structure Stands (x : CallInput) (s : LogState) (c : Call) : Prop where
  st : x.st = s.st
  stack : x.stack = c.stack
  pid : x.pid = c.pid
  fd : x.fd = true
  role : UserString x.vm x.role c.role.bytes
  prompt : UserString x.vm x.prompt c.prompt.bytes
  out : UserBytes x.vm x.out c.out
  null : x.role ≠ 0 ∧ x.prompt ≠ 0 ∧ x.out ≠ 0
  role_apart : x.role + c.role.length < x.out ∨ x.out + c.out.length ≤ x.role
  prompt_apart : x.prompt + c.prompt.length < x.out ∨ x.out + c.out.length ≤ x.prompt
  outmax_le : argint x.outmax ≤ c.out.length
  writable : ∀ k < c.out.length, WritableAt x.vm (x.out + k)

section
variable {x : CallInput} {s : LogState} {c : Call}

theorem Stands.copied (hx : Stands x s c) {bs : List UInt8} (hlen : bs.length ≤ c.out.length) :
    (copyout x.env x.vm x.out bs).1 = true :=
  copyout_of_writable fun k hk => hx.writable k (hk.trans_le hlen)

/-- The lookup, and what stands in memory after it. -/
theorem Stands.cacheget (hx : Stands x s c) :
    let g := cachegetVal c.stack s c.role c.prompt c.out (argint x.outmax)
    x.cacheget.ret = g.1 ∧ x.cacheget.st = g.2.2.st ∧ UserBytes x.cacheget.vm x.out g.2.1 ∧
      UserString x.cacheget.vm x.role c.role.bytes := by
  have hlen : ((cacheGet s.st c.role c.prompt c.stack.toList cacheVallen).out.take
      (if argint x.outmax < cacheVallen then argint x.outmax else cacheVallen).toNat).length ≤
        c.out.length := by
    have hmax := hx.outmax_le
    rw [List.length_take]
    split <;> omega
  obtain ⟨hret, hst, hout, hkeep⟩ := sysCacheget_eq_val c.stack s hx.role hx.prompt hx.out
    hx.null.2.2 hx.outmax_le (hx.copied hlen)
  rw [CallInput.cacheget, hx.stack, hx.st]
  exact ⟨hret, hst, hout, hkeep _ _ hx.role_apart hx.role⟩

/-- The hit path returns the length of the string in the buffer. -/
theorem Stands.hitPath (hx : Stands x s c)
    (hnul : (0 : UInt8) ∈ (cachegetVal c.stack s c.role c.prompt c.out (argint x.outmax)).2.1) :
    hitPath x = ⟨x.cacheget, none, .returned
      (strlen (cachegetVal c.stack s c.role c.prompt c.out (argint x.outmax)).2.1)⟩ := by
  obtain ⟨-, -, hout, hrole⟩ := hx.cacheget
  rw [Proxy.hitPath, hitReturn_eq hrole (hout.userString hnul)]
  rfl

/-- A miss leaves the buffer as it was. -/
theorem cachegetVal_miss {stack : List.Vector UInt8 cacheVallen} {s : LogState}
    {role prompt : CString} {out : List UInt8} {outmax : Int}
    (h : (cachegetVal stack s role prompt out outmax).1 = 0) :
    (cachegetVal stack s role prompt out outmax).2.1 = out := by
  obtain ⟨hrole, hprompt, hnone⟩ := cachegetVal_ret_zero_iff.mp h
  have hget := cacheGet_eq s.st role prompt stack.toList 192
  rw [hnone] at hget
  simp [cachegetVal, hrole, hprompt, hget]

/-- The miss path stores the payload at the front of the buffer, and the strings stay in place. -/
theorem Stands.missPath (hx : Stands x s c) {h : Host}
    (hinput : x.input = (responseLine (decimal c.pid) (h c.role c.prompt).bytes).map some)
    (hmiss : x.cacheget.ret = 0) {r : CallResult}
    (hr : plainCall h (argint x.outmax) c c.out = some r) :
    (missPath x = ⟨x.cacheget, none, .returned (-1)⟩ ∧ r.ret = -1) ∨
      ∃ payload vm', missPath x = ⟨x.cacheget, some payload, .returned r.ret⟩ ∧ 0 ≤ r.ret ∧
        copyout x.env x.cacheget.vm x.out
          (payload.take (argint x.outmax - 1).toNat ++ [0]) = (true, vm') ∧
        UserString vm' x.role c.role.bytes ∧ UserString vm' x.prompt c.prompt.bytes ∧
        UserString vm' x.out (cstr r.out) := by
  have hvm : x.cacheget.vm = x.vm := sysCacheget_vm hmiss
  have hsend : ¬(x.fd = false ∨ x.role = 0 ∨ x.prompt = 0) := by simp [hx.fd, hx.null]
  rw [Proxy.missPath, if_neg hsend]
  by_cases hmax : argint x.outmax ≤ 0
  · rw [plainCall, if_pos hmax] at hr
    obtain rfl := Option.some.inj hr
    exact Or.inl ⟨if_pos (Or.inr hmax), rfl⟩
  rw [plainCall, if_neg hmax] at hr
  obtain ⟨got, hgot, hr⟩ := Option.map_eq_some_iff.mp hr
  have hrout : r.out = (storePayload c.out got.1 (argint x.outmax)).2 := by rw [← hr]
  have hrret : r.ret = (storePayload c.out got.1 (argint x.outmax)).1 := by rw [← hr]
  rw [if_neg (not_or.mpr ⟨hx.null.2.2, hmax⟩), hinput, recvInput_map_some, hx.pid, hgot]
  generalize htext : got.1.take (argint x.outmax - 1).toNat = text
  have hlen : (text ++ [0]).length ≤ c.out.length := by
    have hle := hx.outmax_le
    have := List.length_take_le (argint x.outmax - 1).toNat got.1
    rw [htext] at this
    rw [List.length_append, List.length_singleton]
    omega
  obtain ⟨vm', hcopied⟩ : ∃ vm', copyout x.env x.vm x.out (text ++ [0]) = (true, vm') :=
    ⟨_, Prod.ext (hx.copied hlen) rfl⟩
  have hout := hx.out.copyout hcopied
  refine Or.inr ⟨got.1, vm', ?_, hrret ▸ Int.natCast_nonneg _, ?_, ?_, ?_, ?_⟩
  · simp only [htext, hvm, hcopied, if_true, hrret, storePayload]
  · rw [htext, hvm, hcopied]
  · exact hx.role.copyout hcopied (hx.role_apart.imp id (Nat.add_le_add_left hlen _).trans)
  · exact hx.prompt.copyout hcopied (hx.prompt_apart.imp id (Nat.add_le_add_left hlen _).trans)
  · have hstored : (storePayload c.out got.1 (argint x.outmax)).2 =
        text ++ [0] ++ c.out.drop (text ++ [0]).length := by
      rw [storePayload, htext]
      simp
    rw [hrout, hstored]
    exact hout.userString (by simp)

/-- A call on memory, with the host's reply on the console, returns what the call by value returns
and leaves the same cache, if the buffer holds a string when a length is returned. -/
theorem proxyCallMem_refines (hx : Stands x s c) {h : Host}
    (hinput : x.input = (responseLine (decimal c.pid) (h c.role c.prompt).bytes).map some)
    {r : CallResult} {s' : LogState} (hcall : proxyCall h (argint x.outmax) s c = some (r, s'))
    (hnul : 0 ≤ r.ret → (0 : UInt8) ∈ r.out) :
    (proxyCallMem x).fin = .returned r.ret ∧ cacheAfterCall c.bmap c.junk x = s'.st := by
  obtain ⟨hret, hst, -, -⟩ := hx.cacheget
  rw [proxyCall] at hcall
  by_cases hmiss : (cachegetVal c.stack s c.role c.prompt c.out (argint x.outmax)).1 = 0
  · rw [if_neg (not_not.mpr hmiss), cachegetVal_miss hmiss] at hcall
    obtain ⟨r', hplain, hpair⟩ := Option.map_eq_some_iff.mp hcall
    have hzero : x.cacheget.ret = 0 := hret.trans hmiss
    have hmem : proxyCallMem x = missPath x := by rw [proxyCallMem, if_neg (not_not.mpr hzero)]
    rw [cacheAfterCall, hmem]
    obtain ⟨heq, hneg⟩ | ⟨payload, vm', heq, hpos, hcopied, hrole, hprompt, hout⟩ :=
      hx.missPath hinput hzero hplain
    · rw [if_neg (by omega)] at hpair
      obtain ⟨rfl, rfl⟩ := Prod.mk.inj hpair
      rw [heq, hneg]
      exact ⟨rfl, hst⟩
    · rw [if_pos hpos] at hpair
      obtain ⟨rfl, rfl⟩ := Prod.mk.inj hpair
      rw [heq]
      refine ⟨rfl, ?_⟩
      simp only [cachesetMem, hcopied, hst]
      exact (sysCacheset_eq_val (.ofBytes r'.out) hrole hprompt hout).2
  · rw [if_pos hmiss] at hcall
    obtain ⟨rfl, rfl⟩ := Prod.mk.inj (Option.some.inj hcall)
    have hhit : proxyCallMem x = hitPath x := by
      rw [proxyCallMem, if_pos (hret ▸ hmiss)]
    rw [cacheAfterCall, hhit, hx.hitPath (hnul (Int.natCast_nonneg _))]
    exact ⟨rfl, hst⟩

end

/-- A call whose strings and buffer stand at the front of a page. -/
example : Stands
    ⟨.free, .replicate _ 0, pageOf "\x00r\x00p\x00old\x00", .empty, 3, true, 1, 3, 5, 4, []⟩
    .init ⟨3, by decide, .lit "r", .lit "p", [111, 108, 100, 0], fun _ => true, .zero,
      .replicate _ 0⟩ where
  st := rfl
  stack := rfl
  pid := rfl
  fd := rfl
  role := ((@readStr_eq_some_iff _ 16 _ _).mp (by decide +kernel)).1
  prompt := ((@readStr_eq_some_iff _ 16 _ _).mp (by decide +kernel)).1
  out := by
    unfold UserBytes
    decide +kernel
  null := by decide
  role_apart := by decide
  prompt_apart := by decide
  outmax_le := by decide
  writable k hk := writableAt_pageOf (by simp at hk; simp only [pgsize]; omega)

end LiberalOS.Proxy
