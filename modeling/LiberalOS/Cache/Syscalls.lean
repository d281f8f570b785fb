import LiberalOS.Cache.Runs
import LiberalOS.Kernel.PartialCopy

/-!
# The cache system calls

`sys_cacheget`, `sys_cacheset` and `sys_cacheclear` of `kernel/sysproc.c`, on the registers and the
user memory of the caller. A run of system calls is a run of the cache operations that got past
their arguments.
-/
namespace LiberalOS.Cache
open Foundation Kernel

/-! ## System calls -/

structure CachegetResult where
  ret : Int
  vm : AddressSpace
  st : CacheState

/-- 1 on a hit, 0 on a miss, -1 on a bad argument. `stack` is what the kernel buffer held. -/
def sysCacheget (env : AllocEnv) (stack : List.Vector UInt8 cacheVallen) (vm : AddressSpace)
    (st : CacheState) (a0 a1 a2 a3 : Nat) : CachegetResult :=
  match fetchstr vm a0 16 with
  | none => ⟨-1, vm, st⟩
  | some role =>
    match fetchstr vm a1 256 with
    | none => ⟨-1, vm, st⟩
    | some prompt =>
      let uout := a2
      let outmax := argint a3
      let r := cacheGet st role prompt stack.toList cacheVallen
      if r.hit = true ∧ uout ≠ 0 ∧ outmax > 0 then
        let n := if outmax < cacheVallen then outmax else cacheVallen
        let c := copyout env vm uout (r.out.take n.toNat)
        ⟨if c.1 then 1 else -1, c.2, r.st⟩
      else ⟨if r.hit then 1 else 0, vm, r.st⟩

/-- 1 on a store, 0 if the table is full, -1 on a bad argument. -/
def sysCacheset (bmap : Nat → Bool) (junk : CacheSlot) (vm : AddressSpace) (st : CacheState)
    (a0 a1 a2 : Nat) : Int × CacheState :=
  match fetchstr vm a0 16 with
  | none => (-1, st)
  | some role =>
    match fetchstr vm a1 256 with
    | none => (-1, st)
    | some prompt =>
      match fetchstr vm a2 cacheVallen with
      | none => (-1, st)
      | some val =>
        let r := cacheSet bmap junk st role prompt val
        (if r.1 then 1 else 0, r.2)

def sysCacheclear (st : CacheState) (a0 : Nat) : Int × CacheState := (0, cacheClear (argint a0) st)

/-! ## What a hit delivers -/

/-- The string and its terminator stand at `out`, as far as `outmax` and the kernel buffer go. -/
def DeliveredAt (vm : AddressSpace) (out : Nat) (outmax : Int) (v : List UInt8) : Prop :=
  ∀ k : Nat, (k : Int) < outmax → k < cacheVallen → k ≤ v.length →
    byteAt vm (out + k) = (v ++ [0])[k]?

theorem copyout_delivered {env : AllocEnv} {vm vm' : AddressSpace} {out : Nat} {outmax : Int}
    {buf : List UInt8} (hbuf : buf.length = 192) (hstr : (cstr buf).length < 192)
    (h : copyout env vm out (buf.take (if outmax < 192 then outmax else 192).toNat) =
      (true, vm')) : DeliveredAt vm' out outmax (cstr buf) := by
  intro k hk hlt hle
  simp only [cacheVallen] at hlt
  have hcut : k < (if outmax < 192 then outmax else 192).toNat := by
    split <;> omega
  have hlen : k < (buf.take (if outmax < 192 then outmax else 192).toNat).length := by
    rw [List.length_take]
    omega
  rw [copyout_spec h hlen, List.getElem?_take_of_lt hcut]
  exact getElem?_of_cstr (hbuf ▸ hstr) hle

/-- A return value of 1 is a hit, whose value is delivered if there is a buffer for it. -/
theorem sysCacheget_ret_one {env : AllocEnv} {stack : List.Vector UInt8 cacheVallen}
    {vm : AddressSpace} {st : CacheState} {a0 a1 a2 a3 : Nat}
    (h : (sysCacheget env stack vm st a0 a1 a2 a3).ret = 1) :
    ∃ role prompt rec, fetchstr vm a0 16 = some role ∧ fetchstr vm a1 256 = some prompt ∧
      hitRecord st role prompt = some rec ∧ (a2 ≠ 0 → argint a3 > 0 →
        DeliveredAt (sysCacheget env stack vm st a0 a1 a2 a3).vm a2 (argint a3)
          (rec.valStr.take 191)) := by
  cases hrole : fetchstr vm a0 16 with
  | none => simp [sysCacheget, hrole] at h
  | some role =>
    cases hprompt : fetchstr vm a1 256 with
    | none => simp [sysCacheget, hrole, hprompt] at h
    | some prompt =>
      have hget := cacheGet_eq st role prompt stack.toList 192
      cases hhit : hitRecord st role prompt with
      | none => simp [sysCacheget, hrole, hprompt, hget, hhit] at h
      | some rec =>
        refine ⟨role, prompt, rec, rfl, rfl, hhit, fun hout hmax => ?_⟩
        have hstr : cstr (copyValue stack.toList 192 rec) = rec.valStr.take 191 :=
          cstr_copyValue (by decide) (by simp) rec
        have hlen : (copyValue stack.toList 192 rec).length = 192 := by
          simp [copyValue]
        rw [← hstr]
        cases hcopy : copyout env vm a2 ((copyValue stack.toList 192 rec).take
            (if argint a3 < 192 then argint a3 else 192).toNat) with
        | mk ok vm' =>
          have hcall : sysCacheget env stack vm st a0 a1 a2 a3 =
              ⟨if ok then 1 else -1, vm', { st with ram := ramAfterGet st role prompt }⟩ := by
            simp [sysCacheget, hrole, hprompt, hget, hhit, hout, hmax, hcopy]
          rw [hcall] at h ⊢
          cases ok with
          | false => simp at h
          | true =>
            refine copyout_delivered hlen ?_ hcopy
            rw [hstr, List.length_take]
            omega

/-! ## Runs of system calls -/

inductive SysOp where
  | cacheset (bmap : Nat → Bool) (junk : CacheSlot) (vm : AddressSpace) (a0 a1 a2 : Nat)
  | cacheget (env : AllocEnv) (stack : List.Vector UInt8 cacheVallen) (vm : AddressSpace)
      (a0 a1 a2 a3 : Nat)
  | cacheclear (a0 : Nat)

/-- The cache operation behind a system call whose arguments can be fetched. -/
def SysOp.toOp : SysOp → Option CacheOp
  | .cacheset bmap junk vm a0 a1 a2 => do
    let role ← fetchstr vm a0 16
    let prompt ← fetchstr vm a1 256
    let val ← fetchstr vm a2 cacheVallen
    return .set bmap junk role prompt val
  | .cacheget _ stack vm a0 a1 _ _ => do
    let role ← fetchstr vm a0 16
    let prompt ← fetchstr vm a1 256
    return .get role prompt stack.toList cacheVallen
  | .cacheclear a0 => some (.clear (argint a0))

/-- The cache state a system call leaves. -/
def SysOp.after (st : CacheState) : SysOp → CacheState
  | .cacheset bmap junk vm a0 a1 a2 => (sysCacheset bmap junk vm st a0 a1 a2).2
  | .cacheget env stack vm a0 a1 a2 a3 => (sysCacheget env stack vm st a0 a1 a2 a3).st
  | .cacheclear a0 => (sysCacheclear st a0).2

/-- The log of a system call: a `cacheset` that returns 1 is recorded with its arguments. -/
def SysOp.logged (s : LogState) : SysOp → List Entry
  | .cacheset bmap junk vm a0 a1 a2 =>
    match fetchstr vm a0 16, fetchstr vm a1 256, fetchstr vm a2 cacheVallen with
    | some role, some prompt, some val =>
      if (sysCacheset bmap junk vm s.st a0 a1 a2).1 = 1 then s.log ++ [⟨role, prompt, val⟩]
      else s.log
    | _, _, _ => s.log
  | .cacheget .. | .cacheclear _ => s.log

def sysNext (s : LogState) (op : SysOp) : Option LogState := some ⟨op.after s.st, op.logged s⟩

/-- A system call either fails on its arguments or is its cache operation. -/
theorem sysNext_eq (s : LogState) (op : SysOp) :
    sysNext s op = some ((op.toOp.map (cacheStep s)).getD s) := by
  cases op with
  | cacheset bmap junk vm a0 a1 a2 =>
    cases hrole : fetchstr vm a0 16 with
    | none => simp [sysNext, SysOp.after, SysOp.logged, SysOp.toOp, sysCacheset, hrole]
    | some role =>
      cases hprompt : fetchstr vm a1 256 with
      | none => simp [sysNext, SysOp.after, SysOp.logged, SysOp.toOp, sysCacheset, hrole, hprompt]
      | some prompt =>
        cases hval : fetchstr vm a2 cacheVallen with
        | none =>
          simp [sysNext, SysOp.after, SysOp.logged, SysOp.toOp, sysCacheset, hrole, hprompt, hval]
        | some val =>
          cases hset : (cacheSet bmap junk s.st role prompt val).1 <;>
            simp [sysNext, SysOp.after, SysOp.logged, SysOp.toOp, sysCacheset, hrole, hprompt,
              hval, cacheStep, hset]
  | cacheget env stack vm a0 a1 a2 a3 =>
    cases hrole : fetchstr vm a0 16 with
    | none => simp [sysNext, SysOp.after, SysOp.logged, SysOp.toOp, sysCacheget, hrole]
    | some role =>
      cases hprompt : fetchstr vm a1 256 with
      | none => simp [sysNext, SysOp.after, SysOp.logged, SysOp.toOp, sysCacheget, hrole, hprompt]
      | some prompt =>
        simp only [sysNext, SysOp.after, SysOp.logged, SysOp.toOp, sysCacheget, hrole, hprompt]
        split <;> rfl
  | cacheclear a0 => rfl

/-- The invariant of cache runs holds along runs of system calls. -/
theorem Provenance.sysNext {s t : LogState} (h : Provenance s) {op : SysOp}
    (hstep : sysNext s op = some t) : Provenance t := by
  rw [sysNext_eq] at hstep
  obtain rfl := Option.some.inj hstep
  cases op.toOp with
  | none => exact h
  | some c => exact h.step c

/-! ## Calls by value

The same calls on the strings and the buffer the caller has, for programs whose arguments are
readable and whose buffer is writable. -/

/-- `memmove` to the front of a buffer. -/
def overwrite (out bs : List UInt8) : List UInt8 := bs ++ out.drop bs.length

/-- `cacheget(role, prompt, out, outmax)`. -/
def cachegetVal (stack : List.Vector UInt8 cacheVallen) (s : LogState) (role prompt : CString)
    (out : List UInt8) (outmax : Int) : Int × List UInt8 × LogState :=
  if role.length < 16 ∧ prompt.length < 256 then
    let r := cacheGet s.st role prompt stack.toList cacheVallen
    let n := if outmax < cacheVallen then outmax else cacheVallen
    (if r.hit then 1 else 0,
      if r.hit = true ∧ outmax > 0 then overwrite out (r.out.take n.toNat) else out,
      cacheStep s (.get role prompt stack.toList cacheVallen))
  else (-1, out, s)

/-- `cacheset(role, prompt, val)`. -/
def cachesetVal (bmap : Nat → Bool) (junk : CacheSlot) (s : LogState) (role prompt val : CString) :
    Int × LogState :=
  if role.length < 16 ∧ prompt.length < 256 ∧ val.length < cacheVallen then
    (if (cacheSet bmap junk s.st role prompt val).1 then 1 else 0,
      cacheStep s (.set bmap junk role prompt val))
  else (-1, s)

theorem Provenance.cachegetVal {s : LogState} (h : Provenance s)
    (stack : List.Vector UInt8 cacheVallen) (role prompt : CString) (out : List UInt8)
    (outmax : Int) : Provenance (cachegetVal stack s role prompt out outmax).2.2 := by
  unfold Cache.cachegetVal
  split
  · exact h.get role prompt stack.toList cacheVallen
  · exact h

theorem cachegetVal_log (stack : List.Vector UInt8 cacheVallen) (s : LogState)
    (role prompt : CString) (out : List UInt8) (outmax : Int) :
    (cachegetVal stack s role prompt out outmax).2.2.log = s.log := by
  unfold cachegetVal
  split <;> rfl

/-- `cacheget` reports a miss for arguments within the limits that no record answers. -/
theorem cachegetVal_ret_zero_iff {stack : List.Vector UInt8 cacheVallen} {s : LogState}
    {role prompt : CString} {out : List UInt8} {outmax : Int} :
    (cachegetVal stack s role prompt out outmax).1 = 0 ↔
      role.length < 16 ∧ prompt.length < 256 ∧ hitRecord s.st role prompt = none := by
  rw [← and_assoc]
  unfold cachegetVal
  split
  · next hlim => simp [hlim, cacheGet_eq]
  · next hlim => simp [hlim]

/-- `cacheset` stores for arguments within the limits if the table has a slot for the key; else it
changes nothing. -/
theorem cachesetVal_cases (bmap : Nat → Bool) (junk : CacheSlot) (s : LogState)
    (role prompt val : CString) :
    ((cachesetVal bmap junk s role prompt val).1 = 1 ∧
        freeOrMatch (cacheFnv1a role prompt) s.st.ram = true ∧
        (cachesetVal bmap junk s role prompt val).2 =
          cacheStep s (.set bmap junk role prompt val)) ∨
      (cachesetVal bmap junk s role prompt val).1 ≠ 1 ∧
        (cachesetVal bmap junk s role prompt val).2 = s := by
  unfold cachesetVal
  split
  · cases hfree : freeOrMatch (newSlot junk role prompt val).key s.st.ram with
    | true => exact Or.inl ⟨by simp [cacheSet, hfree], hfree, rfl⟩
    | false => exact Or.inr ⟨by simp [cacheSet, hfree], by simp [cacheStep, cacheSet, hfree]⟩
  · exact Or.inr ⟨by simp, rfl⟩

theorem Provenance.cachesetVal {s : LogState} (h : Provenance s) (bmap : Nat → Bool)
    (junk : CacheSlot) (role prompt val : CString) :
    Provenance (cachesetVal bmap junk s role prompt val).2 := by
  unfold Cache.cachesetVal
  split
  · exact h.set bmap junk role prompt val
  · exact h

/-- A `cacheset` logs its arguments, if they are within the limits, or nothing. -/
theorem cachesetVal_log (bmap : Nat → Bool) (junk : CacheSlot) (s : LogState)
    (role prompt val : CString) :
    (cachesetVal bmap junk s role prompt val).2.log = s.log ∨
      val.length < 192 ∧ (cachesetVal bmap junk s role prompt val).2.log =
        s.log ++ [⟨role, prompt, val⟩] := by
  unfold cachesetVal
  split
  · next hlim =>
    rcases cacheStep_set_cases s bmap junk role prompt val with hsame | ⟨-, heq⟩
    · exact Or.inl (by rw [hsame])
    · exact Or.inr ⟨hlim.2.2, by rw [heq]⟩
  · exact Or.inl rfl

/-! ### Agreement with the system calls -/

/-- A miss copies nothing. -/
theorem sysCacheget_vm {env : AllocEnv} {stack : List.Vector UInt8 cacheVallen}
    {vm : AddressSpace} {st : CacheState} {a0 a1 a2 a3 : Nat}
    (h : (sysCacheget env stack vm st a0 a1 a2 a3).ret = 0) :
    (sysCacheget env stack vm st a0 a1 a2 a3).vm = vm := by
  unfold sysCacheget at h ⊢
  split
  · rfl
  split
  · rfl
  · next role hrole _ prompt hprompt =>
    simp only [hrole, hprompt] at h ⊢
    split
    · next hhit =>
      rw [if_pos hhit] at h
      dsimp only at h
      generalize (copyout env vm a2 _).1 = ok at h
      cases ok <;> simp at h
    · rfl

/-- On arguments that are readable, with a buffer that the value is copied to, `cacheget` returns
what the call by value returns, does the same to the cache and the buffer, and leaves the other
memory alone. -/
theorem sysCacheget_eq_val {env : AllocEnv} (stack : List.Vector UInt8 cacheVallen)
    {vm : AddressSpace} (s : LogState) {a0 a1 a2 a3 : Nat} {role prompt : CString}
    {out : List UInt8} (hrole : UserString vm a0 role.bytes)
    (hprompt : UserString vm a1 prompt.bytes) (hout : UserBytes vm a2 out) (hnull : a2 ≠ 0)
    (hmax : argint a3 ≤ out.length)
    (hcopy : (copyout env vm a2 ((cacheGet s.st role prompt stack.toList cacheVallen).out.take
      (if argint a3 < cacheVallen then argint a3 else cacheVallen).toNat)).1 = true) :
    let r := sysCacheget env stack vm s.st a0 a1 a2 a3
    let g := cachegetVal stack s role prompt out (argint a3)
    r.ret = g.1 ∧ r.st = g.2.2.st ∧ UserBytes r.vm a2 g.2.1 ∧
      ∀ a bs, a + bs.length < a2 ∨ a2 + out.length ≤ a → UserString vm a bs →
        UserString r.vm a bs := by
  intro r g
  have hfetchr := hrole.fetchstr 16
  have hfetchp := hprompt.fetchstr 256
  by_cases hr : role.length < 16
  swap
  · rw [if_neg hr] at hfetchr
    simp [r, g, sysCacheget, cachegetVal, hfetchr, hr, hout]
  rw [if_pos hr] at hfetchr
  by_cases hp : prompt.length < 256
  swap
  · rw [if_neg hp] at hfetchp
    simp [r, g, sysCacheget, cachegetVal, hfetchr, hfetchp, hp, hout]
  rw [if_pos hp] at hfetchp
  have hst : (cacheStep s (.get role prompt stack.toList cacheVallen)).st =
      (cacheGet s.st role prompt stack.toList cacheVallen).st := rfl
  simp only [r, g, sysCacheget, cachegetVal, hfetchr, hfetchp, if_pos (And.intro hr hp), hst]
  generalize cacheGet s.st role prompt stack.toList cacheVallen = got at hcopy ⊢
  by_cases hhit : got.hit = true ∧ argint a3 > 0
  · -- the value goes to the front of the buffer
    rw [if_pos ⟨hhit.1, hnull, hhit.2⟩, if_pos hhit]
    generalize hsrc : got.out.take (if argint a3 < cacheVallen then argint a3 else
      cacheVallen).toNat = src at hcopy ⊢
    have hlen : src.length ≤ out.length := by
      rw [← hsrc, List.length_take]
      split <;> omega
    obtain ⟨vm', hcopied⟩ : ∃ vm', copyout env vm a2 src = (true, vm') :=
      ⟨_, Prod.ext hcopy rfl⟩
    rw [hcopied]
    exact ⟨by simp [hhit.1], rfl, hout.copyout hcopied,
      fun a bs hapart h => h.copyout hcopied (by omega)⟩
  · rw [if_neg fun h => hhit ⟨h.1, h.2.2⟩, if_neg hhit]
    exact ⟨rfl, rfl, hout, fun _ _ _ h => h⟩

/-- `cacheset` returns what the call by value returns, and does the same to the cache. -/
theorem sysCacheset_eq_val {bmap : Nat → Bool} {junk : CacheSlot} {vm : AddressSpace}
    {s : LogState} {a0 a1 a2 : Nat} {role prompt : CString} (val : CString)
    (hrole : UserString vm a0 role.bytes) (hprompt : UserString vm a1 prompt.bytes)
    (hval : UserString vm a2 val.bytes) :
    (sysCacheset bmap junk vm s.st a0 a1 a2).1 = (cachesetVal bmap junk s role prompt val).1 ∧
      (sysCacheset bmap junk vm s.st a0 a1 a2).2 =
        (cachesetVal bmap junk s role prompt val).2.st := by
  rw [sysCacheset, hrole.fetchstr, hprompt.fetchstr, hval.fetchstr, cachesetVal]
  by_cases hr : role.length < 16
  · by_cases hp : prompt.length < 256
    · by_cases hv : val.length < cacheVallen
      · simp only [hr, hp, hv, and_self, if_true]
        exact ⟨trivial, rfl⟩
      · simp [hr, hp, hv]
    · simp [hr, hp]
  · simp [hr]

end LiberalOS.Cache
