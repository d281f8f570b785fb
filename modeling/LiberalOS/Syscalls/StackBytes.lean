import LiberalOS.Cache.Durability
import LiberalOS.Syscalls.Delivery

/-!
# Bytes of the kernel stack

The string buffers of `sys_cacheget`, `sys_verifyfix` and `cache_set` are locals that nothing
clears: `safestrcpy` fills the front of a buffer, and the whole of it is copied out or written to
`/cache.bin`. Two runs that differ in what the stack held are compared here.

## Main results

* `stackFree_iff` — for each of the three, when the output is the same for every content of the
  stack.
-/
namespace LiberalOS.Syscalls
open Foundation Kernel Cache
open Agents (decodeProposal)

/-! ## Buffers that are copied out -/

/-- A buffer whose first bytes are `front` can be copied out without the rest of it exactly if the
copy does not reach beyond. -/
theorem copyout_same_iff {size n : Nat} {front : List UInt8} (hfront : front.length ≤ size)
    (hn : n ≤ size) (env : AllocEnv) (vm : AddressSpace) (addr : Nat) :
    (∀ stack stack' : List.Vector UInt8 size,
        (copyout env vm addr ((front ++ stack.toList.drop front.length).take n)).2 =
          (copyout env vm addr ((front ++ stack'.toList.drop front.length).take n)).2) ↔
      copyoutReach env n vm addr n ≤ front.length := by
  have hlen : ∀ stack : List.Vector UInt8 size,
      ((front ++ stack.toList.drop front.length).take n).length = n := by
    intro stack
    simp
    omega
  have hcopied : ∀ stack : List.Vector UInt8 size,
      Copied vm (copyout env vm addr ((front ++ stack.toList.drop front.length).take n)).2 addr
        ((front ++ stack.toList.drop front.length).take n) (copyoutReach env n vm addr n) := by
    intro stack
    have hreach := copyoutLoop_reach env n vm addr
      ((front ++ stack.toList.drop front.length).take n)
    rw [hlen] at hreach
    rw [copyout, hlen]
    exact hreach
  constructor
  · intro h
    by_contra hbeyond
    -- the byte behind the front is the byte of the stack
    have hle := (hcopied (.replicate _ 0)).le
    rw [hlen] at hle
    have hbyte : ∀ b : UInt8, byteAt (copyout env vm addr
        ((front ++ (List.Vector.replicate size b).toList.drop front.length).take n)).2
        (addr + front.length) = some b := by
      intro b
      have hstack : (List.Vector.replicate size b).toList = List.replicate size b := rfl
      rw [(hcopied (.replicate _ b)).stored front.length (by omega),
        List.getElem?_take_of_lt (by omega), List.getElem?_append_right (Nat.le_refl _), hstack,
        Nat.sub_self, List.drop_replicate, List.getElem?_replicate_of_lt (by omega)]
    have hsame := (hbyte 0).symm.trans ((congrArg (byteAt · _) (h _ _)).trans (hbyte 1))
    cases hsame
  · intro h stack stack'
    have heq := @copyoutLoop_congr env n vm addr
      ((front ++ stack.toList.drop front.length).take n)
      ((front ++ stack'.toList.drop front.length).take n) (by rw [hlen, hlen]) (by
        rw [hlen, List.take_take, List.take_take, List.take_append_of_le_length (by omega),
          List.take_append_of_le_length (by omega)])
    rw [copyout, copyout, hlen, hlen, heq]

/-- The same for a buffer that holds a copied string: besides the string two bytes are set. -/
theorem copyout_safestrcpy_same_iff {size : Nat} (hsize : 1 ≤ size) (t : List UInt8) (max : Int)
    (env : AllocEnv) (vm : AddressSpace) (addr : Nat) :
    (∀ stack stack' : List.Vector UInt8 size,
        (copyout env vm addr (cutTo (safestrcpy stack.toList t size) max)).2 =
          (copyout env vm addr (cutTo (safestrcpy stack'.toList t size) max)).2) ↔
      copyoutReach env (min max.toNat size) vm addr (min max.toNat size) ≤ (cstr t).length + 2 := by
  have hbuf : ∀ stack : List.Vector UInt8 size, cutTo (safestrcpy stack.toList t size) max =
      ((((cstr t).take (size - 1) ++ [0, 0]).take size) ++ stack.toList.drop
        (((cstr t).take (size - 1) ++ [0, 0]).take size).length).take (min max.toNat size) := by
    intro stack
    have hfront : (((cstr t).take (size - 1) ++ [0, 0]).take size).length =
        min ((cstr t).length + 2) size := by
      simp
      omega
    rw [cutTo, length_safestrcpy, List.Vector.toList_length, hfront,
      safestrcpy_eq hsize (by simp)]
  have hreach := (copyoutLoop_reach env (min max.toNat size) vm addr
    (List.replicate (min max.toNat size) 0)).le
  simp only [List.length_replicate] at hreach
  simp only [hbuf]
  rw [copyout_same_iff (by simp) (Nat.min_le_right _ _)]
  simp only [List.length_take, List.length_append, List.length_cons, List.length_nil]
  omega

/-! ## The three outputs -/

/-- The memory after a `cacheget` does not depend on the kernel stack. -/
def CachegetStackFree (env : AllocEnv) (vm : AddressSpace) (st : CacheState)
    (a0 a1 a2 a3 : Nat) : Prop :=
  ∀ stack stack', (sysCacheget env stack vm st a0 a1 a2 a3).vm =
    (sysCacheget env stack' vm st a0 a1 a2 a3).vm

/-- The memory after a `verifyfix` does not depend on the kernel stack. -/
def VerifyfixStackFree (env env' : AllocEnv) (table : ProcTable) (vm : AddressSpace)
    (a0 a1 a2 : Nat) : Prop :=
  ∀ stack stack', (sysVerifyfixAt env env' table stack vm a0 a1 a2).2 =
    (sysVerifyfixAt env env' table stack' vm a0 a1 a2).2

/-- The overlay after a `cache_set` does not depend on the kernel stack. -/
def CacheSetStackFree (bmap : Nat → Bool) (st : CacheState) (role prompt val : CString) : Prop :=
  ∀ junk junk', (cacheSet bmap junk st role prompt val).2.disk =
    (cacheSet bmap junk' st role prompt val).2.disk

/-- A hit with a buffer stores no more than the value and two terminators. -/
def ValueFillsCopy (env : AllocEnv) (vm : AddressSpace) (st : CacheState) (a0 a1 a2 a3 : Nat) :
    Prop :=
  ∀ role prompt rec, fetchstr vm a0 16 = some role → fetchstr vm a1 256 = some prompt →
    hitRecord st role prompt = some rec → a2 ≠ 0 → argint a3 > 0 →
    copyoutReach env (min (argint a3).toNat 192) vm a2 (min (argint a3).toNat 192) ≤
      rec.valStr.length + 2

/-- A verdict with a buffer stores no more than the reason and two terminators. -/
def ReasonFillsCopy (env env' : AllocEnv) (table : ProcTable) (vm : AddressSpace)
    (a0 a1 a2 : Nat) : Prop :=
  ∀ bs vm₁, copyin env vm a0 44 = (some bs, vm₁) → a1 ≠ 0 → argint a2 > 0 →
    copyoutReach env' (min (argint a2).toNat 64) vm₁ a1 (min (argint a2).toNat 64) ≤
      (reasonText table (decodeProposal bs)).length + 2

/-- Nothing is appended, or role and value fill their fields. -/
def RecordFilled (bmap : Nat → Bool) (st : CacheState) (role prompt val : CString) : Prop :=
  freeOrMatch (cacheFnv1a role prompt) st.ram = false ∨ ¬ HasRoom bmap st.disk ∨
    (14 ≤ role.length ∧ 190 ≤ val.length)

/-- A call without a hit or without a buffer stores nothing. -/
theorem sysCacheget_stores_nothing {vm : AddressSpace} {st : CacheState} {a0 a1 a2 a3 : Nat}
    (h : ∀ role prompt rec, fetchstr vm a0 16 = some role → fetchstr vm a1 256 = some prompt →
      hitRecord st role prompt = some rec → a2 ≠ 0 → ¬ argint a3 > 0) (env : AllocEnv)
    (stack : List.Vector UInt8 cacheVallen) :
    (sysCacheget env stack vm st a0 a1 a2 a3).vm = vm := by
  unfold sysCacheget
  cases hrole : fetchstr vm a0 16 with
  | none => rfl
  | some role =>
    cases hprompt : fetchstr vm a1 256 with
    | none => rfl
    | some prompt =>
      dsimp only
      rw [cacheGet_eq]
      refine congrArg CachegetResult.vm (if_neg ?_)
      rintro ⟨hhit, hout, hmax⟩
      obtain ⟨rec, hrec⟩ := Option.isSome_iff_exists.mp hhit
      exact h role prompt rec hrole hprompt hrec hout hmax

theorem sysVerifyfixAt_stores_nothing {env : AllocEnv} {vm : AddressSpace} {a0 a1 a2 : Nat}
    (h : (copyin env vm a0 44).1.isSome → a1 ≠ 0 → ¬ argint a2 > 0) (env' : AllocEnv)
    (table : ProcTable) (stack : List.Vector UInt8 64) :
    (sysVerifyfixAt env env' table stack vm a0 a1 a2).2 = (copyin env vm a0 44).2 := by
  unfold sysVerifyfixAt
  rcases hin : copyin env vm a0 44 with ⟨bs, vm₁⟩
  cases bs with
  | none => rfl
  | some bs =>
    refine congrArg Prod.snd (if_neg ?_)
    rintro ⟨hout, hmax⟩
    exact h (by rw [hin]; rfl) hout hmax

theorem cachegetStackFree_iff (env : AllocEnv) (vm : AddressSpace) (st : CacheState)
    (a0 a1 a2 a3 : Nat) :
    CachegetStackFree env vm st a0 a1 a2 a3 ↔ ValueFillsCopy env vm st a0 a1 a2 a3 := by
  generalize houtmax : argint a3 = outmax
  by_cases hhit : ∃ role prompt rec, fetchstr vm a0 16 = some role ∧
      fetchstr vm a1 256 = some prompt ∧ hitRecord st role prompt = some rec ∧ a2 ≠ 0 ∧ outmax > 0
  · obtain ⟨role, prompt, rec, hrole, hprompt, hrec, hout, hmax⟩ := hhit
    have hvm : ∀ stack : List.Vector UInt8 cacheVallen,
        (sysCacheget env stack vm st a0 a1 a2 a3).vm =
          (copyout env vm a2 (cutTo (safestrcpy stack.toList rec.val.toList 192) outmax)).2 :=
      fun stack => (sysCacheget_hit hrole hprompt hrec hout houtmax hmax env stack).1
    have hsame := @copyout_safestrcpy_same_iff 192 (by decide) rec.val.toList outmax env vm a2
    simp only [CachegetStackFree, hvm]
    refine hsame.trans ⟨fun h role' prompt' rec' hrole' hprompt' hrec' _ _ => ?_, fun h => ?_⟩
    · obtain rfl := Option.some.inj (hrole.symm.trans hrole')
      obtain rfl := Option.some.inj (hprompt.symm.trans hprompt')
      obtain rfl := Option.some.inj (hrec.symm.trans hrec')
      rw [houtmax]
      exact h
    · have hle := h role prompt rec hrole hprompt hrec hout (houtmax ▸ hmax)
      rw [houtmax] at hle
      exact hle
  · have hnone : ∀ role prompt rec, fetchstr vm a0 16 = some role →
        fetchstr vm a1 256 = some prompt → hitRecord st role prompt = some rec → a2 ≠ 0 →
        ¬ argint a3 > 0 := by
      rw [houtmax]
      intro role prompt rec hrole hprompt hrec hout hmax
      exact hhit ⟨role, prompt, rec, hrole, hprompt, hrec, hout, hmax⟩
    refine iff_of_true (fun stack stack' => ?_) fun role prompt rec hrole hprompt hrec hout hmax =>
      absurd hmax (hnone role prompt rec hrole hprompt hrec hout)
    rw [sysCacheget_stores_nothing hnone, sysCacheget_stores_nothing hnone]

theorem verifyfixStackFree_iff (env env' : AllocEnv) (table : ProcTable) (vm : AddressSpace)
    (a0 a1 a2 : Nat) : VerifyfixStackFree env env' table vm a0 a1 a2 ↔
      ReasonFillsCopy env env' table vm a0 a1 a2 := by
  generalize hrlen : argint a2 = rlen
  by_cases hgot : ∃ bs, (copyin env vm a0 44).1 = some bs ∧ a1 ≠ 0 ∧ rlen > 0
  · obtain ⟨bs, hbs, hout, hmax⟩ := hgot
    have hin : copyin env vm a0 44 = (some bs, (copyin env vm a0 44).2) := Prod.ext hbs rfl
    have hvm : ∀ stack : List.Vector UInt8 64,
        (sysVerifyfixAt env env' table stack vm a0 a1 a2).2 =
          (copyout env' (copyin env vm a0 44).2 a1 (cutTo (safestrcpy stack.toList
            (reasonText table (decodeProposal bs)).bytes 64) rlen)).2 :=
      fun stack => (sysVerifyfixAt_verdict hin hout hrlen hmax env' table stack).1
    have hsame := @copyout_safestrcpy_same_iff 64 (by decide)
      (reasonText table (decodeProposal bs)).bytes rlen env' (copyin env vm a0 44).2 a1
    rw [CString.cstr_bytes] at hsame
    simp only [VerifyfixStackFree, hvm]
    refine hsame.trans ⟨fun h bs' vm₁ hin' _ _ => ?_, fun h => ?_⟩
    · obtain ⟨hbs', rfl⟩ := Prod.mk.inj (hin.symm.trans hin')
      obtain rfl := Option.some.inj hbs'
      rw [hrlen]
      exact h
    · have hle := h bs _ hin hout (hrlen ▸ hmax)
      rw [hrlen] at hle
      exact hle
  · have hnone : (copyin env vm a0 44).1.isSome → a1 ≠ 0 → ¬ argint a2 > 0 := by
      rw [hrlen]
      intro hbs hout hmax
      obtain ⟨bs, hbs⟩ := Option.isSome_iff_exists.mp hbs
      exact hgot ⟨bs, hbs, hout, hmax⟩
    refine iff_of_true (fun stack stack' => ?_) fun bs vm₁ hin hout hmax =>
      absurd hmax (hnone (by rw [hin]; rfl) hout)
    rw [sysVerifyfixAt_stores_nothing hnone, sysVerifyfixAt_stores_nothing hnone]

/-! ## The record of a store -/

/-- A copied string leaves nothing of the stack exactly if it fills its field up to two bytes. -/
theorem safestrcpy_same_iff {size : Nat} (hsize : 1 ≤ size) (t : List UInt8) :
    (∀ stack stack' : List.Vector UInt8 size,
        safestrcpy stack.toList t size = safestrcpy stack'.toList t size) ↔
      size ≤ (cstr t).length + 2 := by
  constructor
  · intro h
    by_contra hshort
    have hbyte : ∀ b : UInt8, (safestrcpy (List.Vector.replicate size b).toList t size)[
        (cstr t).length + 2]? = some b := by
      intro b
      have hstack : (List.Vector.replicate size b).toList = List.replicate size b := rfl
      have hfront : (((cstr t).take (size - 1) ++ [0, 0]).take size).length =
          (cstr t).length + 2 := by
        simp
        omega
      rw [safestrcpy_eq hsize (by simp), List.getElem?_append_right (by omega), hfront, hstack,
        Nat.sub_self, List.drop_replicate, List.getElem?_replicate_of_lt (by omega)]
    have hequal := congrArg (·[(cstr t).length + 2]?) (h (.replicate size 0) (.replicate size 1))
    have hsame := (hbyte 0).symm.trans (hequal.trans (hbyte 1))
    cases hsame
  · intro h stack stack'
    have hfull : ∀ s : List.Vector UInt8 size,
        s.toList.drop (min ((cstr t).length + 2) size) = [] := by
      intro s
      exact List.drop_eq_nil_of_le (by simp; omega)
    rw [safestrcpy_eq hsize (by simp), safestrcpy_eq hsize (by simp), hfull, hfull]

theorem newSlot_same_iff (role prompt val : CString) :
    (∀ junk junk', newSlot junk role prompt val = newSlot junk' role prompt val) ↔
      14 ≤ role.length ∧ 190 ≤ val.length := by
  have hrole := @safestrcpy_same_iff 16 (by decide) role.bytes
  have hval := @safestrcpy_same_iff 192 (by decide) val.bytes
  rw [CString.cstr_bytes] at hrole hval
  simp only [CString.length]
  constructor
  · intro h
    constructor
    · have hsame := hrole.mp fun stack stack' => congrArg (·.role.toList)
        (h { CacheSlot.zero with role := stack } { CacheSlot.zero with role := stack' })
      omega
    · have hsame := hval.mp fun stack stack' => congrArg (·.val.toList)
        (h { CacheSlot.zero with val := stack } { CacheSlot.zero with val := stack' })
      omega
  · rintro ⟨hr, hv⟩ junk junk'
    have hr' := hrole.mpr (by omega) junk.role junk'.role
    have hv' := hval.mpr (by omega) junk.val junk'.val
    exact CacheSlot.ext rfl (Subtype.ext hr') rfl (Subtype.ext hv')

theorem cacheSetStackFree_iff (bmap : Nat → Bool) (st : CacheState) (role prompt val : CString) :
    CacheSetStackFree bmap st role prompt val ↔ RecordFilled bmap st role prompt val := by
  have hdisk : ∀ junk, (cacheSet bmap junk st role prompt val).2.disk =
      if freeOrMatch (cacheFnv1a role prompt) st.ram then
        cacheDiskAppend bmap (newSlot junk role prompt val) st.disk else st.disk := fun _ => rfl
  simp only [CacheSetStackFree, RecordFilled, hdisk]
  cases hfree : freeOrMatch (cacheFnv1a role prompt) st.ram with
  | false => simp
  | true =>
    by_cases hroom : HasRoom bmap st.disk
    · obtain ⟨file, hfile⟩ : ∃ file, st.disk = some file := by
        cases hd : st.disk with
        | none => exact (hd ▸ hroom : HasRoom bmap none).elim
        | some file => exact ⟨file, rfl⟩
      have happend : ∀ junk, cacheDiskAppend bmap (newSlot junk role prompt val) st.disk =
          some (file ++ encodeSlot (newSlot junk role prompt val)) := by
        intro junk
        have hok := (appendOk_iff_hasRoom bmap (newSlot junk role prompt val) st.disk).mpr hroom
        rw [hfile] at hok ⊢
        rcases cacheDiskAppend_eq bmap (newSlot junk role prompt val) file with h | h
        · exact h.2
        · exact absurd hok h.1
      simp only [if_true, happend, hroom, not_true_eq_false, false_or, reduceCtorEq]
      rw [← newSlot_same_iff role prompt val]
      refine forall_congr' fun junk => forall_congr' fun junk' => ?_
      rw [Option.some.injEq, List.append_cancel_left_eq]
      exact ⟨fun h => (decodeSlot_encodeSlot _).symm.trans ((congrArg decodeSlot h).trans
        (decodeSlot_encodeSlot _)), congrArg encodeSlot⟩
    · have hsame : ∀ junk, cacheDiskAppend bmap (newSlot junk role prompt val) st.disk =
          st.disk := by
        intro junk
        have hno := mt (appendOk_iff_hasRoom bmap (newSlot junk role prompt val) st.disk).mp hroom
        cases hd : st.disk with
        | none => rfl
        | some file =>
          rw [hd] at hno
          rcases cacheDiskAppend_eq bmap (newSlot junk role prompt val) file with h | h
          · exact absurd h.1 hno
          · exact h.2
      simp [hsame, hroom]

/-- For each of the three outputs: it is the same whatever the kernel stack held, exactly if the
part of the buffer that is copied or written is filled by the string. -/
theorem stackFree_iff (env env' : AllocEnv) (vm : AddressSpace) (st : CacheState)
    (table : ProcTable) (bmap : Nat → Bool) (role prompt val : CString) (a0 a1 a2 a3 : Nat) :
    (CachegetStackFree env vm st a0 a1 a2 a3 ↔ ValueFillsCopy env vm st a0 a1 a2 a3) ∧
      (VerifyfixStackFree env env' table vm a0 a1 a2 ↔
        ReasonFillsCopy env env' table vm a0 a1 a2) ∧
      (CacheSetStackFree bmap st role prompt val ↔ RecordFilled bmap st role prompt val) :=
  ⟨cachegetStackFree_iff env vm st a0 a1 a2 a3,
    verifyfixStackFree_iff env env' table vm a0 a1 a2,
    cacheSetStackFree_iff bmap st role prompt val⟩

/-- The record of a short value carries bytes of the stack into `/cache.bin`. -/
theorem record_shows_stack :
    ¬ ∀ (bmap : Nat → Bool) (st : CacheState) (role prompt val : CString) (junk junk' : CacheSlot),
      (cacheSet bmap junk st role prompt val).2.disk =
        (cacheSet bmap junk' st role prompt val).2.disk := by
  intro h
  have hsame := h (fun _ => true) .empty (.lit "p") (.lit "list files") (.lit "ok") .zero
    { CacheSlot.zero with val := .replicate _ 7 }
  revert hsame
  decide +kernel

end LiberalOS.Syscalls
