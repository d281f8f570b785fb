import LiberalOS.Agents.Evaluator
import LiberalOS.Cache.Syscalls
import LiberalOS.Kernel.PartialCopy

/-!
# Strings in the caller's buffer

`sys_verifyfix` of `kernel/sysproc.c` on user memory, and what the system calls that hand out a
string leave in the buffer of the caller. `sys_cacheget` and `sys_verifyfix` terminate the string in
a buffer of the kernel and then cut that buffer to the caller's length, so a string that does not
fit arrives without its terminator.

## Main results

* `terminated_iff_fits` — the caller finds a NUL in its buffer exactly if the whole string fits.
-/
namespace LiberalOS.Syscalls
open Foundation Kernel Cache
open Agents (decodeProposal)

/-! ## Terminated strings -/

/-- The first `max` bytes at the address hold a NUL, and the string before it is `s`. -/
def StringAt (vm : AddressSpace) (addr max : Nat) (s : List UInt8) : Prop :=
  (0 : UInt8) ∉ s ∧ s.length < max ∧ ∀ k ≤ s.length, byteAt vm (addr + k) = (s ++ [0])[k]?

section
variable {env : AllocEnv} {vm : AddressSpace} {addr : Nat} {buf : List UInt8} {max : Int}

/-- The first bytes of a kernel buffer, as many as the caller has room for. -/
def cutTo (buf : List UInt8) (max : Int) : List UInt8 := buf.take (min max.toNat buf.length)

theorem length_cutTo (buf : List UInt8) (max : Int) :
    (cutTo buf max).length = min max.toNat buf.length := by
  simp [cutTo]

theorem getElem?_cutTo {k : Nat} (h : (k : Int) < max) : (cutTo buf max)[k]? = buf[k]? := by
  by_cases hk : k < buf.length
  · exact List.getElem?_take_of_lt (by omega)
  · rw [List.getElem?_eq_none (by rw [length_cutTo]; omega), List.getElem?_eq_none (by omega)]

/-- A cut behind the terminator. -/
theorem stringAt_cutTo (hok : (copyout env vm addr (cutTo buf max)).1 = true)
    (hbuf : (cstr buf).length < buf.length) (hfit : ((cstr buf).length : Int) < max) :
    StringAt (copyout env vm addr (cutTo buf max)).2 addr max.toNat (cstr buf) := by
  refine ⟨zero_not_mem_cstr buf, by omega, fun k hk => ?_⟩
  have hlt : k < (cutTo buf max).length := by
    rw [length_cutTo]
    omega
  rw [copyout_spec (Prod.ext hok rfl) hlt, getElem?_cutTo (by omega)]
  exact getElem?_of_cstr hbuf hk

/-- A cut before the terminator. -/
theorem not_stringAt_cutTo (hok : (copyout env vm addr (cutTo buf max)).1 = true)
    (hcut : ¬ ((cstr buf).length : Int) < max) (s : List UInt8) :
    ¬ StringAt (copyout env vm addr (cutTo buf max)).2 addr max.toNat s := by
  rintro ⟨-, hlen, hbytes⟩
  have hle := length_cstr_le buf
  have hlt : s.length < (cutTo buf max).length := by
    rw [length_cutTo]
    omega
  have hnul := hbytes s.length (Nat.le_refl _)
  rw [copyout_spec (Prod.ext hok rfl) hlt, getElem?_cutTo (by omega),
    List.getElem?_concat_length] at hnul
  -- the bytes of the string itself are not NUL
  have hget : (cstr buf)[s.length]? = some 0 := by
    have hsplit : cstr buf ++ buf.dropWhile (· != 0) = buf := List.takeWhile_append_dropWhile
    rwa [← hsplit, List.getElem?_append_left (by omega)] at hnul
  exact zero_not_mem_cstr buf (List.mem_of_getElem? hget)

end

/-! ## The verifier system call -/

/-- `sys_verifyfix`: the verdict, or -100 on a bad argument. `stack` is what the kernel's buffer
held. Pages are brought in under `env` for the proposal and under `env'` for the reason. -/
def sysVerifyfixAt (env env' : AllocEnv) (table : ProcTable) (stack : List.Vector UInt8 64)
    (vm : AddressSpace) (a0 a1 a2 : Nat) : Int × AddressSpace :=
  match copyin env vm a0 44 with
  | (none, vm) => (-100, vm)
  | (some bs, vm) =>
    let rlen := argint a2
    let r := sysVerifyfix table stack (decodeProposal bs) rlen
    if a1 ≠ 0 ∧ rlen > 0 then
      let c := copyout env' vm a1 r.2
      (if c.1 then r.1.code else -100, c.2)
    else (r.1.code, vm)

/-- The reason the verifier gives for a proposal. -/
def reasonText (table : ProcTable) (p : FixProposal) : CString :=
  (verifyFix (some p) (some (fillSnapshot p table))).2

/-- The kernel's buffer for the reason once the verifier is through. -/
def reasonBuffer (table : ProcTable) (stack : List.Vector UInt8 64) (p : FixProposal) :
    List UInt8 := safestrcpy stack.toList (reasonText table p).bytes 64

theorem length_reasonBuffer (table : ProcTable) (stack : List.Vector UInt8 64) (p : FixProposal) :
    (reasonBuffer table stack p).length = 64 := by
  simp [reasonBuffer]

/-- A verdict with a buffer for the reason: the front of the kernel's buffer is copied out. -/
theorem sysVerifyfixAt_verdict {env : AllocEnv} {vm vm₁ : AddressSpace} {a0 a1 a2 : Nat}
    {rlen : Int} {bs : List UInt8} (hin : copyin env vm a0 44 = (some bs, vm₁)) (hout : a1 ≠ 0)
    (hrlen : argint a2 = rlen) (hmax : rlen > 0) (env' : AllocEnv) (table : ProcTable)
    (stack : List.Vector UInt8 64) :
    (sysVerifyfixAt env env' table stack vm a0 a1 a2).2 = (copyout env' vm₁ a1
        (cutTo (reasonBuffer table stack (decodeProposal bs)) rlen)).2 ∧
      ((sysVerifyfixAt env env' table stack vm a0 a1 a2).1 ≠ -100 → (copyout env' vm₁ a1
        (cutTo (reasonBuffer table stack (decodeProposal bs)) rlen)).1 = true) := by
  have hcut : (sysVerifyfix table stack (decodeProposal bs) rlen).2 =
      cutTo (reasonBuffer table stack (decodeProposal bs)) rlen := by
    rw [cutTo, length_reasonBuffer]
    simp only [sysVerifyfix, if_pos hmax, reasonBuffer, reasonText]
  unfold sysVerifyfixAt
  rw [hin, hrlen]
  dsimp only
  rw [if_pos ⟨hout, hmax⟩, hcut]
  refine ⟨rfl, fun hret => ?_⟩
  by_contra hno
  simp [hno] at hret

theorem length_reasonText_lt (table : ProcTable) (p : FixProposal) :
    (reasonText table p).length < 64 := length_reason_lt _ _

theorem cstr_reasonBuffer (table : ProcTable) (stack : List.Vector UInt8 64) (p : FixProposal) :
    cstr (reasonBuffer table stack p) = (reasonText table p).bytes := by
  have hlen := length_reasonText_lt table p
  simp only [CString.length] at hlen
  rw [reasonBuffer, cstr_safestrcpy (by omega) (by simp), CString.cstr_bytes]
  exact List.take_of_length_le (by simp; omega)

/-! ## Hits and verdicts -/

/-- A hit with a buffer for the value. -/
theorem sysCacheget_hit {vm : AddressSpace} {st : CacheState} {a0 a1 a2 a3 : Nat}
    {role prompt : CString} {rec : CacheSlot} {outmax : Int}
    (hrole : fetchstr vm a0 16 = some role) (hprompt : fetchstr vm a1 256 = some prompt)
    (hhit : hitRecord st role prompt = some rec) (hout : a2 ≠ 0) (houtmax : argint a3 = outmax)
    (hmax : outmax > 0) (env : AllocEnv) (stack : List.Vector UInt8 cacheVallen) :
    (sysCacheget env stack vm st a0 a1 a2 a3).vm =
        (copyout env vm a2 (cutTo (copyValue stack.toList 192 rec) outmax)).2 ∧
      ((sysCacheget env stack vm st a0 a1 a2 a3).ret = 1 →
        (copyout env vm a2 (cutTo (copyValue stack.toList 192 rec) outmax)).1 = true) := by
  have hget := cacheGet_eq st role prompt stack.toList 192
  rw [hhit] at hget
  have hlen : (copyValue stack.toList 192 rec).length = 192 := by simp [copyValue]
  have hcut : (if outmax < 192 then outmax else 192).toNat = min outmax.toNat 192 := by
    split <;> omega
  simp [sysCacheget, hrole, hprompt, hget, hout, houtmax, hmax, cutTo, hlen, hcut]

/-- A hit leaves a terminated string exactly if its value and the NUL fit. -/
theorem sysCacheget_stringAt_iff {env : AllocEnv} {stack : List.Vector UInt8 cacheVallen}
    {vm : AddressSpace} {st : CacheState} {a0 a1 a2 a3 : Nat} {role prompt : CString}
    {rec : CacheSlot} {outmax : Int} (hrole : fetchstr vm a0 16 = some role)
    (hprompt : fetchstr vm a1 256 = some prompt) (hhit : hitRecord st role prompt = some rec)
    (hout : a2 ≠ 0) (houtmax : argint a3 = outmax) (hmax : 1 ≤ outmax)
    (hret : (sysCacheget env stack vm st a0 a1 a2 a3).ret = 1) :
    StringAt (sysCacheget env stack vm st a0 a1 a2 a3).vm a2 outmax.toNat
        (rec.valStr.take (min 191 (outmax.toNat - 1))) ↔
      ((rec.valStr.take 191).length : Int) < outmax := by
  have hstr : cstr (copyValue stack.toList 192 rec) = rec.valStr.take 191 :=
    cstr_copyValue (by decide) (by simp) rec
  have hbuf : (cstr (copyValue stack.toList 192 rec)).length <
      (copyValue stack.toList 192 rec).length := by
    rw [hstr]
    simp [copyValue]
  obtain ⟨hvm, hok⟩ := sysCacheget_hit hrole hprompt hhit hout houtmax hmax env stack
  rw [hvm]
  by_cases hfit : ((rec.valStr.take 191).length : Int) < outmax
  · have htake : rec.valStr.take (min 191 (outmax.toNat - 1)) = rec.valStr.take 191 := by
      rw [Nat.min_comm, ← List.take_take, List.take_of_length_le (by omega)]
    rw [htake]
    refine iff_of_true ?_ hfit
    rw [← hstr] at hfit ⊢
    exact stringAt_cutTo (hok hret) hbuf hfit
  · exact iff_of_false (not_stringAt_cutTo (hok hret) (hstr ▸ hfit) _) hfit

/-- A verdict leaves a terminated reason exactly if all of it and the NUL fit. -/
theorem sysVerifyfixAt_stringAt_iff {env env' : AllocEnv} {table : ProcTable}
    {stack : List.Vector UInt8 64} {vm vm₁ : AddressSpace} {a0 a1 a2 : Nat} {bs : List UInt8}
    {rlen : Int} (hin : copyin env vm a0 44 = (some bs, vm₁)) (hout : a1 ≠ 0)
    (hrlen : argint a2 = rlen) (hmax : 1 ≤ rlen)
    (hret : (sysVerifyfixAt env env' table stack vm a0 a1 a2).1 ≠ -100) :
    (∃ s, StringAt (sysVerifyfixAt env env' table stack vm a0 a1 a2).2 a1 rlen.toNat s ∧
        s <+: (reasonText table (decodeProposal bs)).bytes) ↔
      ((reasonText table (decodeProposal bs)).length : Int) < rlen := by
  have hstr := cstr_reasonBuffer table stack (decodeProposal bs)
  have hbuf : (cstr (reasonBuffer table stack (decodeProposal bs))).length <
      (reasonBuffer table stack (decodeProposal bs)).length := by
    rw [hstr, length_reasonBuffer]
    exact length_reasonText_lt table _
  obtain ⟨hvm, hok⟩ := sysVerifyfixAt_verdict hin hout hrlen hmax env' table stack
  rw [hvm]
  by_cases hfit : ((reasonText table (decodeProposal bs)).length : Int) < rlen
  · refine iff_of_true ⟨_, stringAt_cutTo (hok hret) hbuf ?_, ?_⟩ hfit
    · rw [hstr]
      exact hfit
    · rw [hstr]
  · refine iff_of_false ?_ hfit
    rintro ⟨s, hs, -⟩
    refine not_stringAt_cutTo (hok hret) ?_ s hs
    rw [hstr]
    exact hfit

/-- What `cacheget` and `verifyfix` leave in a buffer of the caller is a terminated string, cut to
the buffer, exactly if it need not be cut. -/
theorem terminated_iff_fits (env : AllocEnv) (vm : AddressSpace) :
    (∀ (stack : List.Vector UInt8 cacheVallen) (st : CacheState) (a0 a1 a2 a3 : Nat)
      (role prompt : CString) (rec : CacheSlot),
      fetchstr vm a0 16 = some role → fetchstr vm a1 256 = some prompt →
      hitRecord st role prompt = some rec → a2 ≠ 0 → 1 ≤ argint a3 →
      (sysCacheget env stack vm st a0 a1 a2 a3).ret = 1 →
      (StringAt (sysCacheget env stack vm st a0 a1 a2 a3).vm a2 (argint a3).toNat
          (rec.valStr.take (min 191 ((argint a3).toNat - 1))) ↔
        ((rec.valStr.take 191).length : Int) < argint a3)) ∧
    ∀ (env' : AllocEnv) (table : ProcTable) (stack : List.Vector UInt8 64)
      (vm₁ : AddressSpace) (a0 a1 a2 : Nat) (bs : List UInt8),
      copyin env vm a0 44 = (some bs, vm₁) → a1 ≠ 0 → 1 ≤ argint a2 →
      (sysVerifyfixAt env env' table stack vm a0 a1 a2).1 ≠ -100 →
      ((∃ s, StringAt (sysVerifyfixAt env env' table stack vm a0 a1 a2).2 a1 (argint a2).toNat s ∧
          s <+: (reasonText table (decodeProposal bs)).bytes) ↔
        ((reasonText table (decodeProposal bs)).length : Int) < argint a2) := by
  constructor
  · intro stack st a0 a1 a2 a3 role prompt rec hrole hprompt hhit hout hmax hret
    exact sysCacheget_stringAt_iff hrole hprompt hhit hout rfl hmax hret
  · intro env' table stack vm₁ a0 a1 a2 bs hin hout hmax hret
    exact sysVerifyfixAt_stringAt_iff hin hout rfl hmax hret

/-- The cache after one store. -/
def storedOk : CacheState :=
  (cacheSet (fun _ => true) .zero .empty (.lit "p") (.lit "list files") (.lit "ok")).2

/-- A caller with the role at 0 and the prompt at 2. -/
def callerPage : AddressSpace := pageOf "p\x00list files"

theorem threeBytes_stringAt :
    StringAt (sysCacheget .free (.replicate _ 7) callerPage storedOk 0 2 64 3).vm 64 3
      [111, 107] := by
  have hiff := (terminated_iff_fits .free callerPage).1 (.replicate _ 7) storedOk 0 2 64 3
    (.lit "p") (.lit "list files") (newSlot .zero (.lit "p") (.lit "list files") (.lit "ok"))
    (by decide +kernel) (by decide +kernel) (by decide +kernel) (by decide) (by decide)
    (by decide +kernel)
  exact hiff.mpr (by decide +kernel)

/-- A buffer of two bytes receives the two bytes of the value and no NUL. -/
theorem twoBytes_unterminated :
    ¬ ∀ (env : AllocEnv) (stack : List.Vector UInt8 cacheVallen) (vm : AddressSpace)
      (st : CacheState) (a0 a1 a2 a3 : Nat) (role prompt : CString) (rec : CacheSlot),
      fetchstr vm a0 16 = some role → fetchstr vm a1 256 = some prompt →
      hitRecord st role prompt = some rec → a2 ≠ 0 → 1 ≤ argint a3 →
      (sysCacheget env stack vm st a0 a1 a2 a3).ret = 1 →
      StringAt (sysCacheget env stack vm st a0 a1 a2 a3).vm a2 (argint a3).toNat
        (rec.valStr.take (min 191 ((argint a3).toNat - 1))) := by
  intro h
  have hstring := h .free (.replicate _ 7) callerPage storedOk 0 2 64 2 (.lit "p")
    (.lit "list files") (newSlot .zero (.lit "p") (.lit "list files") (.lit "ok"))
    (by decide +kernel) (by decide +kernel) (by decide +kernel) (by decide) (by decide)
    (by decide +kernel)
  have hbyte := hstring.2.2 1 (by decide +kernel)
  revert hbyte
  decide +kernel

end LiberalOS.Syscalls
