import LiberalOS.Cache.Syscalls
import LiberalOS.Proxy.Client

/-!
# Where the answer of `proxy_call` comes from

One `proxy_call` on the memory of its process, with any cache state, any console input and any
pointers. A load or store of user code faults like `copyout` does: a lazily allocated page is
mapped, anything else kills the process.

`proxy_call` takes every non-zero result of `cacheget` for a hit, the error -1 included, and a hit
for a copied value, so it can return the length of whatever `out` held before.

## Main results

* `genuine_iff` — when a call returns a length only for a real answer.
-/
namespace LiberalOS.Proxy
open Foundation Kernel Cache

/-! ## User code -/

/-- Load bytes up to a NUL, at most `fuel` of them; `none` when a load kills the process. -/
def loadString (env : AllocEnv) : Nat → AddressSpace → Nat → Option (List UInt8 × AddressSpace)
  | 0, vm, _ => some ([], vm)
  | fuel + 1, vm, va =>
    match touch env vm va with
    | none => none
    | some vm =>
      match byteAt vm va with
      | none => none
      | some c =>
        if c = 0 then some ([], vm)
        else (loadString env fuel vm (va + 1)).map fun r => (c :: r.1, r.2)

/-- The end of the hit path: the CACHE_HIT marker takes up to 53 bytes of the role if there is a
console, then `strlen(out)` is returned. -/
def hitReturn (env : AllocEnv) (fd : Bool) (vm : AddressSpace) (role out : Nat) : Option Nat :=
  let marked := if fd = true ∧ role ≠ 0 then (loadString env 54 vm role).map Prod.snd else some vm
  marked.bind fun vm => (loadString env maxva vm out).map fun r => r.1.length

/-- How the loop of `proxy_recv` ends on the results of its `read` calls, where `none` is a result
of at most 0. -/
inductive RecvEnd where
  | payload (bs : List UInt8)
  | failed
  | blocked

def recvInput (our : Int) : List UInt8 → List (Option UInt8) → RecvEnd
  | _, [] => .blocked
  | _, none :: _ => .failed
  | line, some c :: rest =>
    match recvByte our line c with
    | .more line => recvInput our line rest
    | .done bs => .payload bs

/-! ## The call -/

/-- Everything a call depends on. `fd` says whether the console could be opened. -/
structure CallInput where
  env : AllocEnv
  stack : List.Vector UInt8 cacheVallen
  vm : AddressSpace
  st : CacheState
  pid : Nat
  fd : Bool
  role : Nat
  prompt : Nat
  out : Nat
  outmax : Nat
  input : List (Option UInt8)

inductive CallEnd where
  | returned (ret : Int)
  | killed
  | blocked

/-- What happened: the result of `cacheget`, the PROXY_RES frame that was accepted, and the end. -/
structure CallTrace where
  cacheget : CachegetResult
  frame : Option (List UInt8)
  fin : CallEnd

def CallInput.cacheget (x : CallInput) : CachegetResult :=
  sysCacheget x.env x.stack x.vm x.st x.role x.prompt x.out x.outmax

/-- The branch `cacheget` sends to with a result other than 0. -/
def hitPath (x : CallInput) : CallTrace :=
  match hitReturn x.env x.fd x.cacheget.vm x.role x.out with
  | some n => ⟨x.cacheget, none, .returned n⟩
  | none => ⟨x.cacheget, none, .killed⟩

/-- `proxy_send`, `proxy_recv` and the copy of the payload, which faults like `copyout`. -/
def missPath (x : CallInput) : CallTrace :=
  if x.fd = false ∨ x.role = 0 ∨ x.prompt = 0 then ⟨x.cacheget, none, .returned (-1)⟩
  else if x.out = 0 ∨ argint x.outmax ≤ 0 then ⟨x.cacheget, none, .returned (-1)⟩
  else
    match recvInput x.pid [] x.input with
    | .blocked => ⟨x.cacheget, none, .blocked⟩
    | .failed => ⟨x.cacheget, none, .returned (-1)⟩
    | .payload bs =>
      let text := bs.take (argint x.outmax - 1).toNat
      if (copyout x.env x.cacheget.vm x.out (text ++ [0])).1 then
        ⟨x.cacheget, some bs, .returned text.length⟩
      else ⟨x.cacheget, some bs, .killed⟩

/-- `proxy_call` up to the `cacheset` at its end, whose result is not used. -/
def proxyCallMem (x : CallInput) : CallTrace :=
  if x.cacheget.ret ≠ 0 then hitPath x else missPath x

/-! ## Statement -/

/-- A real hit whose value stands in the caller's buffer. -/
def CacheAnswer (x : CallInput) (t : CallTrace) : Prop :=
  t.cacheget.ret = 1 ∧ x.out ≠ 0 ∧ argint x.outmax > 0 ∧ ∃ role prompt rec,
    fetchstr x.vm x.role 16 = some role ∧ fetchstr x.vm x.prompt 256 = some prompt ∧
    hitRecord x.st role prompt = some rec ∧
    DeliveredAt t.cacheget.vm x.out (argint x.outmax) (rec.valStr.take 191)

/-- A non-negative length is returned only for a real hit or a frame with the caller's id. -/
def Genuine (x : CallInput) : Prop :=
  ∀ n : Int, (proxyCallMem x).fin = .returned n → 0 ≤ n →
    CacheAnswer x (proxyCallMem x) ∨ ∃ bs, (proxyCallMem x).frame = some bs

/-- The value of a record as far as `sys_cacheget` copies it out. -/
def valueBytes (x : CallInput) (rec : CacheSlot) : List UInt8 :=
  (copyValue x.stack.toList 192 rec).take
    (if argint x.outmax < 192 then argint x.outmax else 192).toNat

/-- Role and prompt are readable and shorter than 16 and 256 bytes, and if the lookup hits there is
a buffer the value can be copied to. -/
def ArgsUsable (x : CallInput) : Prop :=
  ∃ role ∈ fetchstr x.vm x.role 16, ∃ prompt ∈ fetchstr x.vm x.prompt 256,
    ∀ rec ∈ hitRecord x.st role prompt, x.out ≠ 0 ∧ argint x.outmax > 0 ∧
      (copyout x.env x.vm x.out (valueBytes x rec)).1 = true

/-! ## The results of `cacheget` -/

/-- With usable arguments `cacheget` does not fail, and a hit is delivered. -/
theorem ArgsUsable.ret {x : CallInput} (h : ArgsUsable x) :
    x.cacheget.ret = 0 ∨ x.cacheget.ret = 1 ∧ x.out ≠ 0 ∧ argint x.outmax > 0 := by
  obtain ⟨role, hrole, prompt, hprompt, hhit⟩ := h
  have hget := cacheGet_eq x.st role prompt x.stack.toList 192
  rw [Option.mem_def] at hrole hprompt
  cases hrec : hitRecord x.st role prompt with
  | none =>
    refine Or.inl ?_
    simp [CallInput.cacheget, sysCacheget, hrole, hprompt, hget, hrec]
  | some rec =>
    obtain ⟨hout, hmax, hcopy⟩ := hhit rec hrec
    refine Or.inr ⟨?_, hout, hmax⟩
    simp only [valueBytes] at hcopy
    simp [CallInput.cacheget, sysCacheget, hrole, hprompt, hget, hrec, hout, hmax, hcopy]

/-- A result of 1 with a buffer means that the arguments were usable. -/
theorem argsUsable_of_ret {x : CallInput} (h : x.cacheget.ret = 1) (hout : x.out ≠ 0)
    (hmax : argint x.outmax > 0) : ArgsUsable x := by
  obtain ⟨role, prompt, rec, hrole, hprompt, hhit, -⟩ := sysCacheget_ret_one h
  refine ⟨role, hrole, prompt, hprompt, fun rec' hrec' => ⟨hout, hmax, ?_⟩⟩
  obtain rfl := Option.mem_unique hrec' hhit
  have hget := cacheGet_eq x.st role prompt x.stack.toList 192
  cases hcopy : (copyout x.env x.vm x.out (valueBytes x rec')).1 with
  | true => rfl
  | false =>
    simp only [valueBytes] at hcopy
    simp [CallInput.cacheget, sysCacheget, hrole, hprompt, hget, hhit, hout, hmax, hcopy] at h

/-- A miss has usable arguments. -/
theorem argsUsable_of_ret_zero {x : CallInput} (h : x.cacheget.ret = 0) : ArgsUsable x := by
  cases hrole : fetchstr x.vm x.role 16 with
  | none => simp [CallInput.cacheget, sysCacheget, hrole] at h
  | some role =>
    cases hprompt : fetchstr x.vm x.prompt 256 with
    | none => simp [CallInput.cacheget, sysCacheget, hrole, hprompt] at h
    | some prompt =>
      refine ⟨role, hrole, prompt, hprompt, fun rec hrec => ?_⟩
      have hhit : (cacheGet x.st role prompt x.stack.toList cacheVallen).hit = true := by
        rw [cacheGet_eq, Option.mem_def.mp hrec]
        rfl
      have hne : ∀ b : Bool, (if b = true then (1 : Int) else -1) ≠ 0 := by decide
      refine absurd h ?_
      simp only [CallInput.cacheget, sysCacheget, hrole, hprompt, hhit, true_and]
      generalize (if argint x.outmax < cacheVallen then argint x.outmax else cacheVallen) = n
      split
      · exact hne _
      · simp

theorem cacheAnswer_of_ret {x : CallInput} {t : CallTrace} (ht : t.cacheget = x.cacheget)
    (h : x.cacheget.ret = 1) (hout : x.out ≠ 0) (hmax : argint x.outmax > 0) :
    CacheAnswer x t := by
  obtain ⟨role, prompt, rec, hrole, hprompt, hhit, hdeliv⟩ := sysCacheget_ret_one h
  rw [CacheAnswer, ht]
  exact ⟨h, hout, hmax, role, prompt, rec, hrole, hprompt, hhit, hdeliv hout hmax⟩

/-! ## The call as a whole -/

/-- After a miss, a length is returned only with a frame. -/
theorem frame_of_miss {x : CallInput} {n : Int} (hret : (missPath x).fin = .returned n)
    (hn : 0 ≤ n) : ∃ bs, (missPath x).frame = some bs := by
  have hneg : CallEnd.returned (-1) ≠ .returned n := by
    intro h
    have := CallEnd.returned.inj h
    omega
  by_cases hsend : x.fd = false ∨ x.role = 0 ∨ x.prompt = 0
  · rw [missPath, if_pos hsend] at hret
    exact absurd hret hneg
  by_cases hbuf : x.out = 0 ∨ argint x.outmax ≤ 0
  · rw [missPath, if_neg hsend, if_pos hbuf] at hret
    exact absurd hret hneg
  rw [missPath, if_neg hsend, if_neg hbuf] at hret ⊢
  cases hrecv : recvInput x.pid [] x.input with
  | blocked => simp [hrecv] at hret
  | failed =>
    rw [hrecv] at hret
    exact absurd hret hneg
  | payload bs => exact ⟨bs, by simp only [apply_ite CallTrace.frame, ite_self]⟩

/-- A call returns a length only for a real answer exactly if its arguments are usable, or the
reads at the end of the hit path kill the process. -/
theorem genuine_iff (x : CallInput) :
    Genuine x ↔ ArgsUsable x ∨ hitReturn x.env x.fd x.cacheget.vm x.role x.out = none := by
  constructor
  · intro hgen
    by_cases hzero : x.cacheget.ret = 0
    · exact Or.inl (argsUsable_of_ret_zero hzero)
    cases hend : hitReturn x.env x.fd x.cacheget.vm x.role x.out with
    | none => exact Or.inr rfl
    | some n =>
      have hcall : proxyCallMem x = ⟨x.cacheget, none, .returned n⟩ := by
        rw [proxyCallMem, if_pos hzero, hitPath, hend]
      rcases hgen n (by rw [hcall]) (by omega) with ⟨hret, hout, hmax, -⟩ | ⟨bs, hbs⟩
      · rw [hcall] at hret
        exact Or.inl (argsUsable_of_ret hret hout hmax)
      · simp [hcall] at hbs
  · intro hcond n hret hn
    by_cases hzero : x.cacheget.ret = 0
    · rw [proxyCallMem, if_neg (not_not_intro hzero)] at hret ⊢
      exact Or.inr (frame_of_miss hret hn)
    rcases hcond with hargs | hkill
    · obtain ⟨hone, hout, hmax⟩ := hargs.ret.resolve_left hzero
      refine Or.inl (cacheAnswer_of_ret ?_ hone hout hmax)
      rw [proxyCallMem, if_pos hzero, hitPath]
      split <;> rfl
    · rw [proxyCallMem, if_pos hzero, hitPath, hkill] at hret
      cases hret

/-- A role of 16 bytes, the prompt "p" and a buffer that still holds "old", with an empty cache. -/
def longRoleCall : CallInput where
  env := ⟨fun _ => true, fun _ => true⟩
  stack := .replicate _ 0
  vm := pageOf "\x00aaaaaaaaaaaaaaaa\x00p\x00old\x00"
  st := .empty
  pid := 3
  fd := true
  role := 1
  prompt := 18
  out := 20
  outmax := 64
  input := []

/-- `cacheget` fails on the long role, and the call returns 3 with nothing received. -/
theorem stale_buffer_returned : ¬ ∀ x : CallInput, Genuine x := by
  intro h
  have hget : longRoleCall.cacheget.ret = -1 := by decide +kernel
  have hend : hitReturn longRoleCall.env longRoleCall.fd longRoleCall.cacheget.vm
      longRoleCall.role longRoleCall.out = some 3 := by decide +kernel
  have hcall : proxyCallMem longRoleCall = ⟨longRoleCall.cacheget, none, .returned 3⟩ := by
    rw [proxyCallMem, if_pos (by rw [hget]; decide), hitPath, hend]
    rfl
  rcases h longRoleCall 3 (by rw [hcall]) (by decide) with ⟨hret, -⟩ | ⟨bs, hbs⟩
  · rw [hcall, hget] at hret
    exact absurd hret (by decide)
  · simp [hcall] at hbs

end LiberalOS.Proxy
