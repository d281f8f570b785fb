import LiberalOS.Kernel.UserMem

/-!
# Copies that stop half way

`copyin` of `kernel/vm.c`, and what `copyout` has done to user memory when it returns -1: it has
stored a piece from the front of its source, in order, and the pages it brought in are zero. A copy
that gets through leaves the strings and buffers beside its destination as they were.

## Main results

* `copyin_spec` — a successful `copyin` returns the bytes at the source address.
* `copyout_frame` — the effect of `copyout`, also of one that fails.
* `copyout_of_writable` — a mapped and writable destination is enough for success.
-/
namespace LiberalOS.Kernel
open Foundation

/-! ## Bytes from user space -/

/-- The page loop of `copyin`, with the pages it has brought in; `none` for the result -1. -/
def copyinLoop (env : AllocEnv) :
    Nat → AddressSpace → Nat → Nat → Option (List UInt8) × AddressSpace
  | 0, vm, _, len => (if len = 0 then some [] else none, vm)
  | fuel + 1, vm, srcva, len =>
    if len = 0 then (some [], vm)
    else
      let va0 := pgrounddown srcva
      match touch env vm va0 with
      | none => (none, vm)
      | some vm =>
        match walkaddr vm va0 with
        | none => (none, vm)
        | some page =>
          let n := min (pgsize - srcva % pgsize) len
          let bytes := (List.range n).map fun i => page.data (srcva % pgsize + i)
          let r := copyinLoop env fuel vm (va0 + pgsize) (len - n)
          (r.1.map (bytes ++ ·), r.2)

def copyin (env : AllocEnv) (vm : AddressSpace) (srcva len : Nat) :
    Option (List UInt8) × AddressSpace := copyinLoop env len vm srcva len

/-- One round of a `copyin` that gets through. -/
theorem copyinLoop_succ {env : AllocEnv} {fuel : Nat} {vm vm' : AddressSpace} {srcva len : Nat}
    {bs : List UInt8} (hlen : len ≠ 0)
    (h : copyinLoop env (fuel + 1) vm srcva len = (some bs, vm')) :
    ∃ vm₁ page rest, walkaddr vm₁ (pgrounddown srcva) = some page ∧
      copyinLoop env fuel vm₁ (pgrounddown srcva + pgsize)
        (len - min (pgsize - srcva % pgsize) len) = (some rest, vm') ∧
      bs = ((List.range (min (pgsize - srcva % pgsize) len)).map fun i =>
        page.data (srcva % pgsize + i)) ++ rest := by
  rw [copyinLoop, if_neg hlen] at h
  dsimp only at h
  split at h
  · simp at h
  split at h
  · simp at h
  · next vm₁ _ _ page hpage =>
    obtain ⟨hbytes, hvm⟩ := Prod.mk.inj h
    obtain ⟨rest, hrest, rfl⟩ := Option.map_eq_some_iff.mp hbytes
    exact ⟨vm₁, page, rest, hpage, Prod.ext hrest hvm, rfl⟩

/-- Reading brings pages in and changes none. -/
theorem byteAt_copyinLoop {env : AllocEnv} {fuel : Nat} {vm : AddressSpace} {srcva len a : Nat}
    {b : UInt8} (hb : byteAt vm a = some b) :
    byteAt (copyinLoop env fuel vm srcva len).2 a = some b := by
  induction fuel generalizing vm srcva len with
  | zero => exact hb
  | succ fuel ih =>
    rw [copyinLoop]
    split
    · exact hb
    dsimp only
    split
    · exact hb
    · next vm₁ htouch =>
      have hb₁ := byteAt_touch htouch hb
      split
      · exact hb₁
      · exact ih hb₁

theorem copyinLoop_spec {env : AllocEnv} {fuel : Nat} {vm vm' : AddressSpace} {srcva len : Nat}
    {bs : List UInt8} (h : copyinLoop env fuel vm srcva len = (some bs, vm')) :
    bs.length = len ∧ ∀ k < len, bs[k]? = byteAt vm' (srcva + k) := by
  have hmax : maxva = 274877906944 := by decide
  induction fuel generalizing vm srcva len bs with
  | zero =>
    obtain ⟨hbs, -⟩ := Prod.mk.inj h
    by_cases hlen : len = 0
    · obtain rfl : [] = bs := by simpa [hlen] using hbs
      exact ⟨hlen.symm, by omega⟩
    · simp [hlen] at hbs
  | succ fuel ih =>
    by_cases hlen : len = 0
    · rw [copyinLoop, if_pos hlen] at h
      obtain ⟨hbs, -⟩ := Prod.mk.inj h
      obtain rfl := Option.some.inj hbs
      exact ⟨hlen.symm, by omega⟩
    obtain ⟨vm₁, page, rest, hpage, hrest, rfl⟩ := copyinLoop_succ hlen h
    generalize hn : min (pgsize - srcva % pgsize) len = n at hrest ⊢
    obtain ⟨hrestlen, hrestbytes⟩ := ih hrest
    simp only [pgsize] at hn
    refine ⟨by simp [hrestlen]; omega, fun k hk => ?_⟩
    by_cases hkn : k < n
    · -- the byte is in the page just read
      obtain ⟨hlt, hget, huser⟩ := walkaddr_eq_some_iff.mp hpage
      have hwalk : walkaddr vm₁ (srcva + k) = some page := by
        refine walkaddr_eq_some_iff.mpr ⟨?_, ?_, huser⟩
        · simp only [pgrounddown, pgsize] at hlt
          omega
        · have hsame : (srcva + k) / pgsize = pgrounddown srcva / pgsize := by
            simp only [pgrounddown, pgsize]
            omega
          rw [hsame, hget]
      have hoff : (srcva + k) % pgsize = srcva % pgsize + k := by
        simp only [pgsize]
        omega
      have hbyte : byteAt vm₁ (srcva + k) = some (page.data (srcva % pgsize + k)) := by
        rw [byteAt, hwalk, Option.map_some, hoff]
      have hafter : byteAt (copyinLoop env fuel vm₁ (pgrounddown srcva + pgsize) (len - n)).2
          (srcva + k) = some (page.data (srcva % pgsize + k)) := byteAt_copyinLoop hbyte
      rw [hrest] at hafter
      rw [List.getElem?_append_left (by simpa using hkn), hafter]
      simp [hkn]
    · have hbyte := hrestbytes (k - n) (by omega)
      have haddr : pgrounddown srcva + pgsize + (k - n) = srcva + k := by
        simp only [pgrounddown, pgsize]
        omega
      rw [haddr] at hbyte
      rw [List.getElem?_append_right (by simpa using hkn)]
      simpa using hbyte

theorem copyin_spec {env : AllocEnv} {vm vm' : AddressSpace} {srcva len : Nat} {bs : List UInt8}
    (h : copyin env vm srcva len = (some bs, vm')) :
    bs.length = len ∧ ∀ k < len, bs[k]? = byteAt vm' (srcva + k) :=
  copyinLoop_spec h

/-! ## Bytes to user space -/

/-- A byte that a copy did not store: unchanged, or zero in a page that was brought in. -/
def SameByte (old new : Option UInt8) : Prop := new = old ∨ (old = none ∧ new = some 0)

theorem SameByte.trans {a b c : Option UInt8} (h : SameByte a b) (h' : SameByte b c) :
    SameByte a c := by
  rcases h with rfl | ⟨rfl, rfl⟩
  · exact h'
  · rcases h' with rfl | ⟨h', -⟩
    · exact Or.inr ⟨rfl, rfl⟩
    · cases h'

theorem sameByte_touch {env : AllocEnv} {vm vm' : AddressSpace} {va : Nat}
    (h : touch env vm va = some vm') (a : Nat) : SameByte (byteAt vm a) (byteAt vm' a) := by
  cases hb : byteAt vm a with
  | some b => exact Or.inl (byteAt_touch h hb)
  | none =>
    unfold touch at h
    split at h
    · exact Or.inl (Option.some.inj h ▸ hb)
    · unfold vmfault at h
      dsimp only at h
      split at h
      · cases h
      split at h
      · cases h
      split at h
      · obtain rfl := Option.some.inj h
        simp only [byteAt, walkaddr, Option.map_eq_none_iff] at hb ⊢
        by_cases ha : a ≥ maxva
        · simp [ha, SameByte]
        rw [if_neg ha] at hb ⊢
        by_cases hpage : a / pgsize = va / pgsize
        · simp [hpage, SameByte, Page.zero]
        · simp [Function.update_of_ne hpage, hb, SameByte]
      · cases h

theorem sameByte_copyinLoop (env : AllocEnv) (fuel : Nat) (vm : AddressSpace) (srcva len a : Nat) :
    SameByte (byteAt vm a) (byteAt (copyinLoop env fuel vm srcva len).2 a) := by
  induction fuel generalizing vm srcva len with
  | zero => exact Or.inl rfl
  | succ fuel ih =>
    rw [copyinLoop]
    split
    · exact Or.inl rfl
    dsimp only
    split
    · exact Or.inl rfl
    · next vm₁ htouch =>
      have hsame := sameByte_touch htouch a
      split
      · exact hsame
      · exact hsame.trans (ih vm₁ _ _)

/-- A `copyin` reads memory as it was, and zero where no page was mapped yet. -/
theorem copyin_eq_of_same {env : AllocEnv} {vm₀ vm vm' : AddressSpace} {srcva len : Nat}
    {bs : List UInt8} (hsame : ∀ a, SameByte (byteAt vm₀ a) (byteAt vm a))
    (h : copyin env vm srcva len = (some bs, vm')) :
    bs = (List.range len).map fun k => (byteAt vm₀ (srcva + k)).getD 0 := by
  obtain ⟨hlen, hbytes⟩ := copyin_spec h
  refine List.ext_getElem (by simp [hlen]) fun k hk hk' => ?_
  have hread := hbytes k (hlen ▸ hk)
  rw [List.getElem?_eq_getElem hk] at hread
  have hafter := (hsame (srcva + k)).trans (sameByte_copyinLoop env len vm srcva len (srcva + k))
  have hvm : (copyinLoop env len vm srcva len).2 = vm' := congrArg Prod.snd h
  rw [hvm, ← hread] at hafter
  rw [List.getElem_map, List.getElem_range]
  rcases hafter with heq | ⟨hnone, hzero⟩
  · rw [← heq, Option.getD_some]
  · rw [hnone, Option.getD_none, Option.some.inj hzero]

/-- A store into a page changes no byte outside of its piece. -/
theorem byteAt_setPage_frame {vm : AddressSpace} {page : Page} {va a : Nat} {bs : List UInt8}
    (hpage : vm.pages (va / pgsize) = some page) (ha : a < va ∨ va + bs.length ≤ a) :
    byteAt (vm.setPage (va / pgsize) (page.store (va % pgsize) bs)) a = byteAt vm a := by
  simp only [byteAt, walkaddr, AddressSpace.setPage]
  by_cases hmax : a ≥ maxva
  · simp [hmax]
  rw [if_neg hmax, if_neg hmax]
  by_cases hsame : a / pgsize = va / pgsize
  · rw [hsame, Function.update_self, hpage]
    have hdata : (page.store (va % pgsize) bs).data (a % pgsize) = page.data (a % pgsize) := by
      simp only [Page.store]
      split
      · have hout : bs.length ≤ a % pgsize - va % pgsize := by
          simp only [pgsize] at *
          omega
        rw [List.getD_eq_getElem?_getD, List.getElem?_eq_none hout, Option.getD_none]
      · rfl
    cases huser : page.user <;> simp [Page.store, Option.filter, huser] at hdata ⊢
    exact hdata
  · rw [Function.update_of_ne hsame]

/-- What a copy has done to memory, however it ends: the first `m` bytes of the source are stored,
all of them in case of success. -/
structure Copied (vm vm' : AddressSpace) (dstva : Nat) (src : List UInt8) (m : Nat) : Prop where
  le : m ≤ src.length
  stored : ∀ k < m, byteAt vm' (dstva + k) = src[k]?
  elsewhere : ∀ a, (a < dstva ∨ dstva + m ≤ a) → SameByte (byteAt vm a) (byteAt vm' a)

theorem Copied.nothing {vm vm' : AddressSpace} (h : ∀ a, SameByte (byteAt vm a) (byteAt vm' a))
    (dstva : Nat) (src : List UInt8) : Copied vm vm' dstva src 0 :=
  ⟨Nat.zero_le _, by omega, fun a _ => h a⟩

/-- One page of a copy and the rest of it. -/
theorem Copied.page {vm vm₁ vm₂ : AddressSpace} {page : Page} {dstva n m : Nat} {src : List UInt8}
    (hsame : ∀ a, SameByte (byteAt vm a) (byteAt vm₁ a)) (hlt : dstva < maxva)
    (hpage : vm₁.pages (dstva / pgsize) = some page) (huser : page.user = true)
    (hn : min (pgsize - dstva % pgsize) src.length = n)
    (hrest : Copied (vm₁.setPage (dstva / pgsize) (page.store (dstva % pgsize) (src.take n))) vm₂
      (pgrounddown dstva + pgsize) (src.drop n) m) : Copied vm vm₂ dstva src (n + m) := by
  have hmle := hrest.le
  rw [List.length_drop] at hmle
  simp only [pgsize] at hn
  have hlen : (src.take n).length = n := by
    rw [List.length_take]
    omega
  -- the rest starts at the next page, or there is none
  have hnext : m = 0 ∨ pgrounddown dstva + pgsize = dstva + n := by
    simp only [pgrounddown, pgsize]
    omega
  have hbelow : dstva + n ≤ pgrounddown dstva + pgsize := by
    simp only [pgrounddown, pgsize]
    omega
  refine ⟨by omega, fun k hk => ?_, fun a ha => ?_⟩
  · by_cases hkn : k < n
    · have hbyte : byteAt (vm₁.setPage (dstva / pgsize) (page.store (dstva % pgsize)
          (src.take n))) (dstva + k) = src[k]? := by
        rw [byteAt_setPage_stored hlt huser (by omega) (by simp only [pgsize]; omega),
          List.getElem?_take_of_lt hkn]
      rcases hrest.elsewhere (dstva + k) (Or.inl (by omega)) with heq | ⟨hnone, -⟩
      · rw [heq, hbyte]
      · rw [hbyte, List.getElem?_eq_none_iff] at hnone
        omega
    · have hbyte := hrest.stored (k - n) (by omega)
      have haddr : pgrounddown dstva + pgsize + (k - n) = dstva + k := by omega
      rw [haddr, List.getElem?_drop] at hbyte
      rwa [show n + (k - n) = k by omega] at hbyte
  · refine (hsame a).trans ?_
    have hframe : byteAt (vm₁.setPage (dstva / pgsize) (page.store (dstva % pgsize)
        (src.take n))) a = byteAt vm₁ a := byteAt_setPage_frame hpage (by omega)
    rw [← hframe]
    exact hrest.elsewhere a (by omega)

/-- The number of bytes the page loop of `copyout` stores before it stops. -/
def copyoutReach (env : AllocEnv) : Nat → AddressSpace → Nat → Nat → Nat
  | 0, _, _, _ => 0
  | fuel + 1, vm, dstva, len =>
    if len = 0 then 0
    else if pgrounddown dstva ≥ maxva then 0
    else
      match touch env vm (pgrounddown dstva) with
      | none => 0
      | some vm =>
        match walkaddr vm (pgrounddown dstva) with
        | none => 0
        | some page =>
          if page.write = false then 0
          else
            let n := min (pgsize - dstva % pgsize) len
            n + copyoutReach env fuel vm (pgrounddown dstva + pgsize) (len - n)

/-- The same mapping with other bytes in some pages. -/
def SameMap (vm vm' : AddressSpace) : Prop :=
  vm.sz = vm'.sz ∧ ∀ n, (vm.pages n).map (fun page => (page.user, page.write)) =
    (vm'.pages n).map fun page => (page.user, page.write)

theorem sameMap_setPage_store {vm : AddressSpace} {n : Nat} {page : Page}
    (h : vm.pages n = some page) (off : Nat) (bs : List UInt8) :
    SameMap (vm.setPage n (page.store off bs)) vm := by
  refine ⟨rfl, fun m => ?_⟩
  by_cases hm : m = n
  · subst hm
    simp [AddressSpace.setPage, h, Page.store]
  · simp [AddressSpace.setPage, Function.update_of_ne hm]

theorem SameMap.walk_flags {vm vm' : AddressSpace} (h : SameMap vm vm') (va : Nat) :
    (walkaddr vm va).map (fun page => (page.user, page.write)) =
      (walkaddr vm' va).map fun page => (page.user, page.write) := by
  have hpage := h.2 (va / pgsize)
  unfold walkaddr
  split
  · rfl
  · cases hp : vm.pages (va / pgsize) <;> cases hp' : vm'.pages (va / pgsize) <;>
      simp [hp, hp'] at hpage
    · rfl
    · next page page' => cases huser : page'.user <;> simp_all [Option.filter]

theorem SameMap.touch_cases {vm vm' : AddressSpace} (h : SameMap vm vm') (env : AllocEnv)
    (va : Nat) :
    (touch env vm va = none ∧ touch env vm' va = none) ∨
      ∃ vm₁ vm₁', touch env vm va = some vm₁ ∧ touch env vm' va = some vm₁' ∧
        SameMap vm₁ vm₁' := by
  have hwalk := h.walk_flags va
  unfold touch
  cases hw : walkaddr vm va <;> cases hw' : walkaddr vm' va <;> simp [hw, hw'] at hwalk
  · have hpage := h.2 (va / pgsize)
    have hsz : va ≥ vm.sz ↔ va ≥ vm'.sz := by rw [h.1]
    simp only [vmfault]
    by_cases hva : va ≥ vm.sz
    · rw [if_pos hva, if_pos (hsz.mp hva)]
      exact Or.inl ⟨rfl, rfl⟩
    · rw [if_neg hva, if_neg (mt hsz.mpr hva)]
      cases hp : vm.pages (va / pgsize) <;> cases hp' : vm'.pages (va / pgsize) <;>
        simp only [hp, hp', Option.map_none, Option.map_some, reduceCtorEq] at hpage
      · by_cases hok : (env.kalloc (va / pgsize) && env.walk (va / pgsize)) = true
        · simp only [if_pos hok]
          refine Or.inr ⟨_, _, rfl, rfl, h.1, fun n => ?_⟩
          by_cases hn : n = va / pgsize
          · simp [hn]
          · simpa [Function.update_of_ne hn] using h.2 n
        · exact Or.inl ⟨if_neg hok, if_neg hok⟩
      · simp
  · exact Or.inr ⟨vm, vm', rfl, rfl, h⟩

/-- The bytes in memory do not matter. -/
theorem SameMap.reach_eq {env : AllocEnv} {fuel : Nat} {vm vm' : AddressSpace}
    (h : SameMap vm vm') (dstva len : Nat) :
    copyoutReach env fuel vm dstva len = copyoutReach env fuel vm' dstva len := by
  induction fuel generalizing vm vm' dstva len with
  | zero => rfl
  | succ fuel ih =>
    simp only [copyoutReach]
    obtain ⟨ht, ht'⟩ | ⟨vm₁, vm₁', ht, ht', h₁⟩ := h.touch_cases env (pgrounddown dstva)
    · rw [ht, ht']
    · have hwalk := h₁.walk_flags (pgrounddown dstva)
      rw [ht, ht']
      dsimp only
      cases hw : walkaddr vm₁ (pgrounddown dstva) <;>
        cases hw' : walkaddr vm₁' (pgrounddown dstva) <;> simp [hw, hw'] at hwalk
      · rfl
      · simp [hwalk.2, ih h₁]

/-- One round of the loop: it stops without a store, or it stores into a page and goes on. -/
theorem copyoutLoop_cases (env : AllocEnv) (fuel : Nat) (vm : AddressSpace) (dstva len : Nat) :
    (copyoutReach env (fuel + 1) vm dstva len = 0 ∧ ∃ r : Bool × AddressSpace,
        (r.1 = true → len = 0) ∧ (∀ a, SameByte (byteAt vm a) (byteAt r.2 a)) ∧
        ∀ src : List UInt8, src.length = len → copyoutLoop env (fuel + 1) vm dstva src = r) ∨
      ∃ n vm₁ page, n = min (pgsize - dstva % pgsize) len ∧
        (∀ a, SameByte (byteAt vm a) (byteAt vm₁ a)) ∧ dstva < maxva ∧
        vm₁.pages (dstva / pgsize) = some page ∧ page.user = true ∧
        copyoutReach env (fuel + 1) vm dstva len =
          n + copyoutReach env fuel vm₁ (pgrounddown dstva + pgsize) (len - n) ∧
        ∀ src : List UInt8, src.length = len → copyoutLoop env (fuel + 1) vm dstva src =
          copyoutLoop env fuel
            (vm₁.setPage (dstva / pgsize) (page.store (dstva % pgsize) (src.take n)))
            (pgrounddown dstva + pgsize) (src.drop n) := by
  have hsame : ∀ a, SameByte (byteAt vm a) (byteAt vm a) := fun _ => Or.inl rfl
  have hmax : maxva = 274877906944 := by decide
  have hdiv : pgrounddown dstva / pgsize = dstva / pgsize := Nat.mul_div_cancel _ (by decide)
  simp only [copyoutReach, copyoutLoop, ← List.length_eq_zero_iff]
  by_cases hlen : len = 0
  · exact Or.inl ⟨by simp [hlen], (true, vm), fun _ => hlen, hsame, fun src hsrc => by
      simp [hsrc, hlen]⟩
  by_cases hva : pgrounddown dstva ≥ maxva
  · exact Or.inl ⟨by simp [hva], (false, vm), by simp, hsame, fun src hsrc => by
      simp [hsrc, hlen, hva]⟩
  cases htouch : touch env vm (pgrounddown dstva) with
  | none =>
    exact Or.inl ⟨by simp, (false, vm), by simp, hsame, fun src hsrc => by simp [hsrc, hlen, hva]⟩
  | some vm₁ =>
    have hsame₁ := sameByte_touch htouch
    cases hwalk : walkaddr vm₁ (pgrounddown dstva) with
    | none =>
      exact Or.inl ⟨by simp [hwalk], (false, vm₁), by simp, hsame₁, fun src hsrc => by
        simp [hsrc, hlen, hva, hwalk]⟩
    | some page =>
      obtain ⟨-, hget, huser⟩ := walkaddr_eq_some_iff.mp hwalk
      cases hwrite : page.write with
      | false =>
        exact Or.inl ⟨by simp [hwalk, hwrite], (false, vm₁), by simp, hsame₁, fun src hsrc => by
          simp [hsrc, hlen, hva, hwalk, hwrite]⟩
      | true =>
        have hlt : dstva < maxva := by
          simp only [pgrounddown, pgsize] at hva
          omega
        refine Or.inr ⟨_, vm₁, page, rfl, hsame₁, hlt, hdiv ▸ hget, huser, ?_, fun src hsrc => ?_⟩
        · simp [hlen, hva, hwalk, hwrite]
        · simp [hsrc, hlen, hva, hwalk, hwrite, hdiv]

/-- A copy stores the bytes in its reach and no others. -/
theorem copyoutLoop_reach (env : AllocEnv) (fuel : Nat) (vm : AddressSpace) (dstva : Nat)
    (src : List UInt8) : Copied vm (copyoutLoop env fuel vm dstva src).2 dstva src
      (copyoutReach env fuel vm dstva src.length) := by
  induction fuel generalizing vm dstva src with
  | zero => exact .nothing (fun _ => Or.inl rfl) dstva src
  | succ fuel ih =>
    rcases copyoutLoop_cases env fuel vm dstva src.length with
      ⟨hreach, r, -, hsame, hloop⟩ | ⟨n, vm₁, page, hn, hsame, hlt, hpage, huser, hreach, hloop⟩
    · rw [hreach, hloop src rfl]
      exact .nothing hsame dstva src
    · rw [hreach, hloop src rfl]
      refine Copied.page hsame hlt hpage huser hn.symm ?_
      have hrest := ih (vm₁.setPage (dstva / pgsize) (page.store (dstva % pgsize) (src.take n)))
        (pgrounddown dstva + pgsize) (src.drop n)
      rwa [List.length_drop, (sameMap_setPage_store hpage _ _).reach_eq] at hrest

/-- A copy that succeeds reaches the end of its source. -/
theorem copyoutReach_of_ok {env : AllocEnv} {fuel : Nat} {vm : AddressSpace} {dstva : Nat}
    {src : List UInt8} (h : (copyoutLoop env fuel vm dstva src).1 = true) :
    copyoutReach env fuel vm dstva src.length = src.length := by
  induction fuel generalizing vm dstva src with
  | zero =>
    have hempty : src = [] := List.isEmpty_iff.mp h
    rw [hempty]
    rfl
  | succ fuel ih =>
    rcases copyoutLoop_cases env fuel vm dstva src.length with
      ⟨hreach, r, hempty, -, hloop⟩ | ⟨n, vm₁, page, hn, -, -, hpage, -, hreach, hloop⟩
    · rw [hloop src rfl] at h
      rw [hreach, hempty h]
    · rw [hloop src rfl] at h
      have hrest := ih h
      rw [List.length_drop, (sameMap_setPage_store hpage _ _).reach_eq] at hrest
      rw [hreach, hrest]
      omega

/-- What lies beyond the reach of a copy has no influence. -/
theorem copyoutLoop_congr {env : AllocEnv} {fuel : Nat} {vm : AddressSpace} {dstva : Nat}
    {src src' : List UInt8} (hlen : src'.length = src.length)
    (h : src.take (copyoutReach env fuel vm dstva src.length) =
      src'.take (copyoutReach env fuel vm dstva src.length)) :
    copyoutLoop env fuel vm dstva src = copyoutLoop env fuel vm dstva src' := by
  induction fuel generalizing vm dstva src src' with
  | zero =>
    have hempty : src.isEmpty = src'.isEmpty := by
      cases src <;> cases src' <;> simp at hlen ⊢
    rw [copyoutLoop, copyoutLoop, hempty]
  | succ fuel ih =>
    rcases copyoutLoop_cases env fuel vm dstva src.length with
      ⟨-, r, -, -, hloop⟩ | ⟨n, vm₁, page, hn, -, -, hpage, -, hreach, hloop⟩
    · rw [hloop src rfl, hloop src' hlen]
    · rw [hreach] at h
      have hfront : src.take n = src'.take n := by
        have := congrArg (List.take n) h
        rwa [List.take_take, List.take_take, Nat.min_eq_left (Nat.le_add_right _ _)] at this
      rw [hloop src rfl, hloop src' hlen, hfront]
      refine ih (by rw [List.length_drop, List.length_drop, hlen]) ?_
      rw [List.length_drop, (sameMap_setPage_store hpage _ _).reach_eq]
      have := congrArg (List.drop n) h
      rwa [List.drop_take, List.drop_take, Nat.add_sub_cancel_left] at this

theorem copyout_frame (env : AllocEnv) (vm : AddressSpace) (dstva : Nat) (src : List UInt8) :
    ∃ m, Copied vm (copyout env vm dstva src).2 dstva src m ∧
      ((copyout env vm dstva src).1 = true → m = src.length) :=
  ⟨_, copyoutLoop_reach env src.length vm dstva src, fun hok => copyoutReach_of_ok hok⟩

/-! ## Writable destinations -/

/-- User code may store at the address. -/
def WritableAt (vm : AddressSpace) (va : Nat) : Prop :=
  ∃ page, walkaddr vm va = some page ∧ page.write = true

theorem writableAt_pageOf {text : String} {a : Nat} (h : a < pgsize) :
    WritableAt (pageOf text) a := by
  have hmax : ¬ a ≥ maxva := by
    have : pgsize ≤ maxva := by decide
    omega
  have hdiv : a / pgsize = 0 := Nat.div_eq_of_lt h
  exact ⟨_, by simp [walkaddr, hmax, pageOf, hdiv, Option.filter]; rfl, rfl⟩

theorem copyoutLoop_of_writable {env : AllocEnv} {fuel : Nat} {vm : AddressSpace} {dstva : Nat}
    {src : List UInt8} (hfuel : src.length ≤ fuel)
    (h : ∀ k < src.length, WritableAt vm (dstva + k)) :
    (copyoutLoop env fuel vm dstva src).1 = true := by
  induction fuel generalizing vm dstva src with
  | zero =>
    obtain rfl : src = [] := List.length_eq_zero_iff.mp (by omega)
    rfl
  | succ fuel ih =>
    rw [copyoutLoop]
    split
    · rfl
    · next hsrc =>
      have hpos : 0 < src.length := List.length_pos_iff.mpr hsrc
      obtain ⟨page, hpage, hwrite⟩ := h 0 hpos
      obtain ⟨hlt, hget, huser⟩ := walkaddr_eq_some_iff.mp hpage
      have hdiv : pgrounddown dstva / pgsize = dstva / pgsize :=
        Nat.mul_div_cancel _ (by decide)
      have hva : pgrounddown dstva < maxva := by
        have : pgrounddown dstva ≤ dstva := Nat.div_mul_le_self _ _
        omega
      have hwalk : walkaddr vm (pgrounddown dstva) = some page :=
        walkaddr_eq_some_iff.mpr ⟨hva, by rw [hdiv]; exact hget, huser⟩
      dsimp only
      rw [if_neg (by omega), touch, hwalk]
      dsimp only
      rw [hwalk]
      dsimp only
      rw [if_neg (by simp [hwrite])]
      refine ih (by rw [List.length_drop]; simp only [pgsize]; omega) fun k hk => ?_
      rw [List.length_drop] at hk
      -- the pages that follow are as they were
      generalize hn : min (pgsize - dstva % pgsize) src.length = n at hk ⊢
      simp only [pgsize] at hn
      obtain ⟨page', hpage', hwrite'⟩ := h (n + k) (by omega)
      have haddr : pgrounddown dstva + pgsize + k = dstva + (n + k) := by
        simp only [pgrounddown, pgsize]
        omega
      obtain ⟨hlt', hget', huser'⟩ := walkaddr_eq_some_iff.mp hpage'
      refine ⟨page', walkaddr_eq_some_iff.mpr ⟨by omega, ?_, huser'⟩, hwrite'⟩
      have hne : (dstva + (n + k)) / pgsize ≠ pgrounddown dstva / pgsize := by
        rw [hdiv]
        simp only [pgsize]
        omega
      rw [haddr]
      exact (Function.update_of_ne hne _ _).trans hget'

theorem copyout_of_writable {env : AllocEnv} {vm : AddressSpace} {dstva : Nat} {src : List UInt8}
    (h : ∀ k < src.length, WritableAt vm (dstva + k)) : (copyout env vm dstva src).1 = true :=
  copyoutLoop_of_writable (Nat.le_refl _) h

/-! ## Strings and buffers of user code -/

section
variable {env : AllocEnv} {vm vm' : AddressSpace} {a dstva : Nat} {s bs src : List UInt8}

/-- The bytes stand at the address, in mapped user pages. -/
def UserBytes (vm : AddressSpace) (a : Nat) (bs : List UInt8) : Prop :=
  ∀ k < bs.length, byteAt vm (a + k) = bs[k]?

/-- A copy that succeeds leaves alone what is mapped outside its destination. -/
theorem byteAt_copyout {b : UInt8} (h : copyout env vm dstva src = (true, vm'))
    (ha : a < dstva ∨ dstva + src.length ≤ a) (hb : byteAt vm a = some b) :
    byteAt vm' a = some b := by
  obtain ⟨m, hcopied, hm⟩ := copyout_frame env vm dstva src
  rw [h] at hcopied hm
  obtain rfl := hm rfl
  obtain hsame | ⟨hnone, -⟩ := hcopied.elsewhere a ha
  · exact hsame.trans hb
  · simp [hnone] at hb

theorem UserString.lt_maxva (h : UserString vm a s) : a + s.length < maxva := by
  induction s generalizing a with
  | nil =>
    obtain ⟨page, hpage, -⟩ := Option.map_eq_some_iff.mp h
    exact (walkaddr_eq_some_iff.mp hpage).1
  | cons b s ih =>
    have hrest := ih h.2.2
    rw [List.length_cons]
    omega

/-- A string is fetched unless it is too long. -/
theorem UserString.fetchstr {s : CString} (h : UserString vm a s.bytes) (max : Nat) :
    fetchstr vm a max = if s.length < max then some s else none := by
  split
  · next hlen => exact fetchstr_eq_some_iff.mpr ⟨h, hlen⟩
  · next hlen =>
    rw [Option.eq_none_iff_forall_ne_some]
    intro t ht
    obtain ⟨ht, htlen⟩ := fetchstr_eq_some_iff.mp ht
    rw [CString.length, h.unique ht] at hlen
    exact hlen htlen

/-- A copy that does not touch the string leaves it in place. -/
theorem UserString.copyout (h : UserString vm a s)
    (hcopy : copyout env vm dstva src = (true, vm'))
    (hapart : a + s.length < dstva ∨ dstva + src.length ≤ a) : UserString vm' a s := by
  induction s generalizing a with
  | nil => exact byteAt_copyout hcopy hapart h
  | cons b s ih =>
    rw [List.length_cons] at hapart
    exact ⟨h.1, byteAt_copyout hcopy (by omega) h.2.1, ih h.2.2 (by omega)⟩

/-- A buffer with a NUL holds a string. -/
theorem UserBytes.userString (h : UserBytes vm a bs) (hnul : (0 : UInt8) ∈ bs) :
    UserString vm a (cstr bs) := by
  induction bs generalizing a with
  | nil => cases hnul
  | cons b bs ih =>
    have hfirst : byteAt vm a = some b := by simpa using h 0 (by simp)
    have hrest : UserBytes vm (a + 1) bs := by
      intro k hk
      have := h (k + 1) (by simpa using hk)
      rwa [show a + (k + 1) = a + 1 + k by omega, List.getElem?_cons_succ] at this
    rw [cstr_cons]
    split
    · next hb => rwa [hb] at hfirst
    · next hb =>
      exact ⟨hb, hfirst, ih hrest ((List.mem_cons.mp hnul).resolve_left (Ne.symm hb))⟩

/-- A copy to the front of a buffer. -/
theorem UserBytes.copyout (h : UserBytes vm a bs) (hcopy : copyout env vm a src = (true, vm')) :
    UserBytes vm' a (src ++ bs.drop src.length) := by
  intro k hk
  by_cases hsrc : k < src.length
  · rw [copyout_spec hcopy hsrc, List.getElem?_append_left hsrc]
  · have hlt : k < bs.length := by
      rw [List.length_append, List.length_drop] at hk
      omega
    rw [List.getElem?_append_right (by omega), List.getElem?_drop,
      show src.length + (k - src.length) = k by omega, List.getElem?_eq_getElem hlt]
    refine byteAt_copyout hcopy (Or.inr (by omega)) ?_
    rw [h k hlt, List.getElem?_eq_getElem hlt]

end

end LiberalOS.Kernel
