import LiberalOS.Foundation.NulString
import LiberalOS.Kernel.Vm

/-!
# Copying between kernel and user memory

`walkaddr`, `copyinstr`, `copyout` and `fetchstr` of `kernel/vm.c` and `kernel/syscall.c`, page by
page as in the source. `copyout` maps lazily allocated pages on the way; `copyinstr` does not.

## Main results

* `copyinstr_spec` — a string that is fetched is NUL-free and shorter than the limit.
* `fetchstr_eq_some_iff` — which strings are fetched.
* `copyout_spec` — after a successful copy the bytes can be read back.
-/
namespace LiberalOS.Kernel
open Foundation

/-- The user page at a virtual address. -/
def walkaddr (vm : AddressSpace) (va : Nat) : Option Page :=
  if va ≥ maxva then none else (vm.pages (va / pgsize)).filter (·.user)

/-- The byte user code reads at an address whose page is mapped. -/
def byteAt (vm : AddressSpace) (va : Nat) : Option UInt8 :=
  (walkaddr vm va).map fun page => page.data (va % pgsize)

theorem walkaddr_eq_some_iff {vm : AddressSpace} {va : Nat} {page : Page} :
    walkaddr vm va = some page ↔
      va < maxva ∧ vm.pages (va / pgsize) = some page ∧ page.user = true := by
  unfold walkaddr
  split
  · simp only [false_iff, reduceCtorEq]
    omega
  · rw [Option.filter_eq_some_iff]
    constructor
    · rintro ⟨h1, h2⟩
      exact ⟨by omega, h1, h2⟩
    · rintro ⟨-, h1, h2⟩
      exact ⟨h1, h2⟩

/-- A process of one page that holds these bytes. -/
def pageOf (text : String) : AddressSpace where
  sz := pgsize
  pages n := if n = 0 then
      some ⟨true, true, fun i => (text.toList.map fun c => UInt8.ofNat c.toNat).getD i 0⟩
    else none
  sz_le := pgsize_le_trapframe

/-! ## Strings from user space -/

/-- The inner loop of `copyinstr`: the bytes before a NUL, and whether there is one. -/
def copyinstrPage (data : Nat → UInt8) : Nat → Nat → List UInt8 × Bool
  | _, 0 => ([], false)
  | off, n + 1 =>
    if data off = 0 then ([], true)
    else
      let r := copyinstrPage data (off + 1) n
      (data off :: r.1, r.2)

/-- The page loop; every iteration takes at least one byte, so `max` bounds their number. -/
def copyinstrLoop (vm : AddressSpace) : Nat → Nat → Nat → Option (List UInt8)
  | 0, _, _ => none
  | fuel + 1, srcva, max =>
    if max = 0 then none
    else
      match walkaddr vm (pgrounddown srcva) with
      | none => none
      | some page =>
        let n := min (pgsize - srcva % pgsize) max
        let r := copyinstrPage page.data (srcva % pgsize) n
        if r.2 then some r.1
        else (copyinstrLoop vm fuel (pgrounddown srcva + pgsize) (max - n)).map (r.1 ++ ·)

/-- Copy a NUL-terminated string of fewer than `max` bytes; `none` for the result -1. -/
def copyinstr (vm : AddressSpace) (srcva max : Nat) : Option (List UInt8) :=
  copyinstrLoop vm max srcva max

/-- The string argument of a system call. -/
def fetchstr (vm : AddressSpace) (addr max : Nat) : Option CString :=
  (copyinstr vm addr max).map .ofBytes

theorem copyinstrPage_spec (data : Nat → UInt8) (off n : Nat) :
    (0 : UInt8) ∉ (copyinstrPage data off n).1 ∧
      (copyinstrPage data off n).1.length +
        (if (copyinstrPage data off n).2 then 1 else 0) ≤ n := by
  induction n generalizing off with
  | zero => simp [copyinstrPage]
  | succ n ih =>
    by_cases h : data off = 0
    · simp [copyinstrPage, h]
    · obtain ⟨hnul, hlen⟩ := ih (off + 1)
      refine ⟨?_, ?_⟩
      · simp only [copyinstrPage, if_neg h, List.mem_cons, not_or]
        exact ⟨Ne.symm h, hnul⟩
      · simp only [copyinstrPage, if_neg h, List.length_cons]
        omega

theorem copyinstrLoop_spec {vm : AddressSpace} {fuel srcva max : Nat} {bs : List UInt8}
    (h : copyinstrLoop vm fuel srcva max = some bs) : (0 : UInt8) ∉ bs ∧ bs.length < max := by
  induction fuel generalizing srcva max bs with
  | zero => simp [copyinstrLoop] at h
  | succ fuel ih =>
    rw [copyinstrLoop] at h
    split at h
    · cases h
    split at h
    · cases h
    · next hmax _ page _ =>
      have hn : min (pgsize - srcva % pgsize) max ≤ max := Nat.min_le_right _ _
      obtain ⟨hnul, hlen⟩ := copyinstrPage_spec page.data (srcva % pgsize)
        (min (pgsize - srcva % pgsize) max)
      dsimp only at h
      split at h
      · next hgot =>
        obtain rfl := Option.some.inj h
        rw [if_pos hgot] at hlen
        exact ⟨hnul, by omega⟩
      · next hgot =>
        rw [if_neg hgot] at hlen
        obtain ⟨rest, hrest, rfl⟩ := Option.map_eq_some_iff.mp h
        obtain ⟨hnul', hlen'⟩ := ih hrest
        refine ⟨by simp [hnul, hnul'], ?_⟩
        rw [List.length_append]
        omega

theorem copyinstr_spec {vm : AddressSpace} {srcva max : Nat} {bs : List UInt8}
    (h : copyinstr vm srcva max = some bs) : (0 : UInt8) ∉ bs ∧ bs.length < max :=
  copyinstrLoop_spec h

theorem fetchstr_length {vm : AddressSpace} {addr max : Nat} {s : CString}
    (h : fetchstr vm addr max = some s) : s.bytes.length < max := by
  obtain ⟨bs, hbs, rfl⟩ := Option.map_eq_some_iff.mp h
  exact (length_cstr_le bs).trans_lt (copyinstr_spec hbs).2

/-! ### Byte by byte -/

/-- The string of fewer than `max` bytes at an address, read without regard to pages. -/
def readStr (vm : AddressSpace) : Nat → Nat → Option (List UInt8)
  | 0, _ => none
  | max + 1, a =>
    match byteAt vm a with
    | none => none
    | some b => if b = 0 then some [] else (readStr vm max (a + 1)).map (b :: ·)

/-- The NUL-free bytes and a NUL behind them stand at the address, in mapped user pages. -/
def UserString (vm : AddressSpace) : Nat → List UInt8 → Prop
  | a, [] => byteAt vm a = some 0
  | a, b :: s => b ≠ 0 ∧ byteAt vm a = some b ∧ UserString vm (a + 1) s

theorem UserString.zero_not_mem {vm : AddressSpace} {a : Nat} {s : List UInt8}
    (h : UserString vm a s) : (0 : UInt8) ∉ s := by
  induction s generalizing a with
  | nil => simp
  | cons b s ih => exact List.not_mem_cons_of_ne_of_not_mem (Ne.symm h.1) (ih h.2.2)

theorem UserString.unique {vm : AddressSpace} {a : Nat} {s t : List UInt8}
    (hs : UserString vm a s) (ht : UserString vm a t) : s = t := by
  induction s generalizing a t with
  | nil =>
    cases t with
    | nil => rfl
    | cons c t => exact absurd (Option.some.inj (ht.2.1.symm.trans hs)) ht.1
  | cons b s ih =>
    cases t with
    | nil => exact absurd (Option.some.inj (hs.2.1.symm.trans ht)) hs.1
    | cons c t => rw [Option.some.inj (hs.2.1.symm.trans ht.2.1), ih hs.2.2 ht.2.2]

theorem readStr_eq_some_iff {vm : AddressSpace} {max a : Nat} {s : List UInt8} :
    readStr vm max a = some s ↔ UserString vm a s ∧ s.length < max := by
  induction max generalizing a s with
  | zero => simp [readStr]
  | succ max ih =>
    rw [readStr]
    cases hb : byteAt vm a with
    | none => cases s <;> simp [UserString, hb]
    | some b =>
      by_cases h0 : b = 0
      · cases s with
        | nil => simp [UserString, hb, h0]
        | cons c s =>
          simp only [h0, if_true, UserString, hb, Option.some.injEq]
          grind
      · cases s with
        | nil => simp [UserString, hb, h0]
        | cons c s =>
          simp only [h0, if_false, Option.map_eq_some_iff, ih, List.cons.injEq, UserString, hb,
            Option.some.injEq, List.length_cons]
          grind

/-- A part of a page is read as its bytes are, one by one. -/
theorem readStr_page {vm : AddressSpace} {data : Nat → UInt8} {n : Nat} (m : Nat) {a off : Nat}
    (hbytes : ∀ i < n, byteAt vm (a + i) = some (data (off + i))) :
    readStr vm (n + m) a =
      if (copyinstrPage data off n).2 then some (copyinstrPage data off n).1
      else (readStr vm m (a + n)).map ((copyinstrPage data off n).1 ++ ·) := by
  induction n generalizing a off with
  | zero => simp [copyinstrPage]
  | succ n ih =>
    have hfirst : byteAt vm a = some (data off) := hbytes 0 (by omega)
    have hrest := @ih (a + 1) (off + 1) fun i hi => by
      have := hbytes (i + 1) (by omega)
      rwa [show a + (i + 1) = a + 1 + i by omega, show off + (i + 1) = off + 1 + i by omega] at this
    rw [show n + 1 + m = n + m + 1 by omega, readStr, hfirst]
    by_cases h0 : data off = 0
    · simp [copyinstrPage, h0]
    · simp only [copyinstrPage, if_neg h0, hrest]
      split
      · rfl
      · rw [Option.map_map, show a + 1 + n = a + (n + 1) by omega]
        rfl

theorem walkaddr_pgrounddown (vm : AddressSpace) (va : Nat) :
    walkaddr vm (pgrounddown va) = walkaddr vm va := by
  have hmax : maxva = 274877906944 := by decide
  have hdiv : pgrounddown va / pgsize = va / pgsize := Nat.mul_div_cancel _ (by decide)
  have hbound : pgrounddown va ≥ maxva ↔ va ≥ maxva := by
    simp only [pgrounddown, pgsize]
    omega
  simp only [walkaddr, hdiv, hbound]

/-- The page loop reads the string as it stands in memory, across page boundaries. -/
theorem copyinstrLoop_eq {vm : AddressSpace} {fuel srcva max : Nat} (hfuel : max ≤ fuel) :
    copyinstrLoop vm fuel srcva max = readStr vm max srcva := by
  have hmax : maxva = 274877906944 := by decide
  induction fuel generalizing srcva max with
  | zero =>
    obtain rfl : max = 0 := by omega
    rfl
  | succ fuel ih =>
    rw [copyinstrLoop]
    split
    · next h0 =>
      subst h0
      rfl
    · next hpos =>
      rw [walkaddr_pgrounddown]
      cases hpage : walkaddr vm srcva with
      | none =>
        obtain ⟨m, rfl⟩ : ∃ m, max = m + 1 := ⟨max - 1, by omega⟩
        have hnone : byteAt vm srcva = none := by rw [byteAt, hpage, Option.map_none]
        rw [readStr, hnone]
      | some page =>
        generalize hn : min (pgsize - srcva % pgsize) max = n
        simp only [pgsize] at hn
        obtain ⟨hlt, hget, huser⟩ := walkaddr_eq_some_iff.mp hpage
        have hbytes : ∀ i < n, byteAt vm (srcva + i) = some (page.data (srcva % pgsize + i)) := by
          intro i hi
          have hsame : (srcva + i) / pgsize = srcva / pgsize := by
            simp only [pgsize]
            omega
          have hwalk : walkaddr vm (srcva + i) = some page := by
            refine walkaddr_eq_some_iff.mpr ⟨?_, hsame ▸ hget, huser⟩
            simp only [pgsize] at hsame
            omega
          rw [byteAt, hwalk, Option.map_some,
            show (srcva + i) % pgsize = srcva % pgsize + i by simp only [pgsize]; omega]
        have hread := readStr_page (max - n) hbytes
        rw [show n + (max - n) = max by omega] at hread
        dsimp only
        rw [hread, ih (by omega)]
        split
        · rfl
        · -- the page is used up, or the limit is and nothing more is read
          rcases Nat.lt_or_ge n max with hmore | hdone
          · rw [show pgrounddown srcva + pgsize = srcva + n by
              simp only [pgrounddown, pgsize]; omega]
          · rw [show max - n = 0 by omega]
            rfl

/-- A string argument is fetched exactly if it is there and shorter than the limit. -/
theorem fetchstr_eq_some_iff {vm : AddressSpace} {a max : Nat} {s : CString} :
    fetchstr vm a max = some s ↔ UserString vm a s.bytes ∧ s.length < max := by
  rw [fetchstr, copyinstr, copyinstrLoop_eq (Nat.le_refl _), Option.map_eq_some_iff]
  constructor
  · rintro ⟨bs, hbs, rfl⟩
    have hread := readStr_eq_some_iff.mp hbs
    have hself : cstr bs = bs := cstr_eq_self hread.1.zero_not_mem
    simpa [CString.ofBytes, CString.length, hself] using hread
  · rintro ⟨hs, hlen⟩
    exact ⟨s.bytes, readStr_eq_some_iff.mpr ⟨hs, hlen⟩, CString.ext (CString.cstr_bytes s)⟩

/-! ## Bytes to user space -/

/-- `memmove` into page `n` at offset `off`. -/
def Page.store (page : Page) (off : Nat) (bs : List UInt8) : Page :=
  { page with data := fun i => if off ≤ i then bs.getD (i - off) (page.data i) else page.data i }

def AddressSpace.setPage (vm : AddressSpace) (n : Nat) (page : Page) : AddressSpace :=
  { vm with pages := Function.update vm.pages n (some page) }

/-- The address space with the page at `va` present, after a fault if need be. -/
def touch (env : AllocEnv) (vm : AddressSpace) (va : Nat) : Option AddressSpace :=
  match walkaddr vm va with
  | some _ => some vm
  | none => vmfault env vm va

/-- The page loop of `copyout`; `false` for the result -1. -/
def copyoutLoop (env : AllocEnv) :
    Nat → AddressSpace → Nat → List UInt8 → Bool × AddressSpace
  | 0, vm, _, src => (src.isEmpty, vm)
  | fuel + 1, vm, dstva, src =>
    if src = [] then (true, vm)
    else
      let va0 := pgrounddown dstva
      if va0 ≥ maxva then (false, vm)
      else
        match touch env vm va0 with
        | none => (false, vm)
        | some vm =>
          match walkaddr vm va0 with
          | none => (false, vm)
          | some page =>
            -- read-only text pages are refused
            if page.write = false then (false, vm)
            else
              let n := min (pgsize - dstva % pgsize) src.length
              let vm := vm.setPage (va0 / pgsize) (page.store (dstva % pgsize) (src.take n))
              copyoutLoop env fuel vm (va0 + pgsize) (src.drop n)

def copyout (env : AllocEnv) (vm : AddressSpace) (dstva : Nat) (src : List UInt8) :
    Bool × AddressSpace := copyoutLoop env src.length vm dstva src

/-- What was mapped stays as it is when a page is brought in. -/
theorem byteAt_touch {env : AllocEnv} {vm vm' : AddressSpace} {va a : Nat} {b : UInt8}
    (h : touch env vm va = some vm') (hb : byteAt vm a = some b) : byteAt vm' a = some b := by
  unfold touch at h
  split at h
  · exact Option.some.inj h ▸ hb
  · unfold vmfault at h
    dsimp only at h
    split at h
    · cases h
    split at h
    · cases h
    · next hnone =>
      split at h
      · obtain rfl := Option.some.inj h
        obtain ⟨page, hpage, rfl⟩ := Option.map_eq_some_iff.mp hb
        obtain ⟨hlt, hget, huser⟩ := walkaddr_eq_some_iff.mp hpage
        have hne : a / pgsize ≠ va / pgsize := by
          intro heq
          simp [← heq, hget] at hnone
        refine Option.map_eq_some_iff.mpr ⟨page, walkaddr_eq_some_iff.mpr ⟨hlt, ?_, huser⟩, rfl⟩
        exact (Function.update_of_ne hne _ _).trans hget
      · cases h

/-- A store into a page changes no byte before its offset. -/
theorem byteAt_setPage_store {vm : AddressSpace} {page : Page} {va a : Nat} {bs : List UInt8}
    {b : UInt8} (hpage : vm.pages (va / pgsize) = some page) (ha : a < va)
    (hb : byteAt vm a = some b) :
    byteAt (vm.setPage (va / pgsize) (page.store (va % pgsize) bs)) a = some b := by
  obtain ⟨page', hpage', rfl⟩ := Option.map_eq_some_iff.mp hb
  obtain ⟨hlt, hget, huser⟩ := walkaddr_eq_some_iff.mp hpage'
  by_cases hsame : a / pgsize = va / pgsize
  · obtain rfl : page' = page := Option.some.inj (hget.symm.trans (hsame ▸ hpage))
    refine Option.map_eq_some_iff.mpr ⟨page'.store (va % pgsize) bs,
      walkaddr_eq_some_iff.mpr ⟨hlt, ?_, huser⟩, ?_⟩
    · simp [AddressSpace.setPage, hsame]
    · have : ¬ va % pgsize ≤ a % pgsize := by
        simp only [pgsize] at *
        omega
      simp [Page.store, this]
  · refine Option.map_eq_some_iff.mpr ⟨page', walkaddr_eq_some_iff.mpr ⟨hlt, ?_, huser⟩, rfl⟩
    simp [AddressSpace.setPage, Function.update_of_ne hsame, hget]

theorem byteAt_setPage_stored {vm : AddressSpace} {page : Page} {va k : Nat} {bs : List UInt8}
    (hva : va < maxva) (huser : page.user = true) (hk : k < bs.length)
    (hfit : bs.length ≤ pgsize - va % pgsize) :
    byteAt (vm.setPage (va / pgsize) (page.store (va % pgsize) bs)) (va + k) = bs[k]? := by
  have hmax : maxva = 274877906944 := by decide
  have hpage : (va + k) / pgsize = va / pgsize := by
    simp only [pgsize] at *
    omega
  have hoff : (va + k) % pgsize = va % pgsize + k := by
    simp only [pgsize] at *
    omega
  have hwalk : walkaddr (vm.setPage (va / pgsize) (page.store (va % pgsize) bs)) (va + k) =
      some (page.store (va % pgsize) bs) := by
    refine walkaddr_eq_some_iff.mpr ⟨?_, ?_, huser⟩
    · simp only [pgsize] at *
      omega
    · simp [AddressSpace.setPage, hpage]
  rw [byteAt, hwalk, hoff, List.getElem?_eq_getElem hk]
  simp [Page.store, hk]

/-- One round of a copy that goes on: the page it stores into, and the rest of the copy. -/
theorem copyoutLoop_succ {env : AllocEnv} {fuel : Nat} {vm vm' : AddressSpace} {dstva : Nat}
    {src : List UInt8} (hsrc : src ≠ [])
    (h : copyoutLoop env (fuel + 1) vm dstva src = (true, vm')) :
    ∃ vm₁ page, touch env vm (pgrounddown dstva) = some vm₁ ∧ dstva < maxva ∧
      vm₁.pages (dstva / pgsize) = some page ∧ page.user = true ∧
      copyoutLoop env fuel (vm₁.setPage (dstva / pgsize) (page.store (dstva % pgsize)
        (src.take (min (pgsize - dstva % pgsize) src.length)))) (pgrounddown dstva + pgsize)
        (src.drop (min (pgsize - dstva % pgsize) src.length)) = (true, vm') := by
  have hdiv : pgrounddown dstva / pgsize = dstva / pgsize :=
    Nat.mul_div_cancel _ (by decide)
  have hmax : maxva = 274877906944 := by decide
  rw [copyoutLoop, if_neg hsrc] at h
  dsimp only at h
  split at h
  · simp at h
  split at h
  · simp at h
  split at h
  · simp at h
  split at h
  · simp at h
  · next hva vm₁ htouch _ page hpage hwrite =>
    obtain ⟨hlt, hget, huser⟩ := walkaddr_eq_some_iff.mp hpage
    rw [hdiv] at hget h
    refine ⟨vm₁, page, htouch, ?_, hget, huser, h⟩
    simp only [pgrounddown, pgsize] at hlt
    omega

/-- A copy leaves alone what is mapped below its destination. -/
theorem byteAt_copyoutLoop {env : AllocEnv} {fuel : Nat} {vm vm' : AddressSpace} {dstva a : Nat}
    {src : List UInt8} {b : UInt8} (h : copyoutLoop env fuel vm dstva src = (true, vm'))
    (ha : a < dstva) (hb : byteAt vm a = some b) : byteAt vm' a = some b := by
  induction fuel generalizing vm dstva src with
  | zero =>
    obtain ⟨-, rfl⟩ := Prod.mk.inj h
    exact hb
  | succ fuel ih =>
    by_cases hsrc : src = []
    · rw [copyoutLoop, if_pos hsrc] at h
      obtain ⟨-, rfl⟩ := Prod.mk.inj h
      exact hb
    · obtain ⟨vm₁, page, htouch, hlt, hpage, huser, hrest⟩ := copyoutLoop_succ hsrc h
      refine ih hrest ?_ (byteAt_setPage_store hpage ha (byteAt_touch htouch hb))
      simp only [pgrounddown, pgsize]
      omega

/-- After a successful copy the bytes can be read back. -/
theorem copyoutLoop_spec {env : AllocEnv} {fuel : Nat} {vm vm' : AddressSpace} {dstva : Nat}
    {src : List UInt8} (h : copyoutLoop env fuel vm dstva src = (true, vm')) {k : Nat}
    (hk : k < src.length) : byteAt vm' (dstva + k) = src[k]? := by
  induction fuel generalizing vm dstva src k with
  | zero =>
    have hempty : src.isEmpty = true := congrArg Prod.fst h
    simp [List.isEmpty_iff.mp hempty] at hk
  | succ fuel ih =>
    have hsrc : src ≠ [] := by
      rintro rfl
      simp at hk
    obtain ⟨vm₁, page, -, hlt, hpage, huser, hrest⟩ := copyoutLoop_succ hsrc h
    generalize hn : min (pgsize - dstva % pgsize) src.length = n at hrest
    simp only [pgsize] at hn
    have hlen : (src.take n).length = n := by
      rw [List.length_take]
      omega
    by_cases hkn : k < n
    · -- the byte is stored in this page, and the later pages lie above it
      have hfit : (src.take n).length ≤ pgsize - dstva % pgsize := by
        simp only [pgsize]
        omega
      have hbyte : byteAt (vm₁.setPage (dstva / pgsize) (page.store (dstva % pgsize)
          (src.take n))) (dstva + k) = some src[k] := by
        rw [byteAt_setPage_stored hlt huser (by omega) hfit, List.getElem?_take_of_lt hkn,
          List.getElem?_eq_getElem hk]
      rw [List.getElem?_eq_getElem hk]
      refine byteAt_copyoutLoop hrest ?_ hbyte
      simp only [pgrounddown, pgsize]
      omega
    · have hrec := ih (k := k - n) hrest (by rw [List.length_drop]; omega)
      rw [List.getElem?_drop] at hrec
      have haddr : pgrounddown dstva + pgsize + (k - n) = dstva + k := by
        simp only [pgrounddown, pgsize]
        omega
      have hidx : n + (k - n) = k := by omega
      rw [haddr] at hrec
      exact hrec.trans (congrArg (src[·]?) hidx)

theorem copyout_spec {env : AllocEnv} {vm vm' : AddressSpace} {dstva : Nat} {src : List UInt8}
    (h : copyout env vm dstva src = (true, vm')) {k : Nat} (hk : k < src.length) :
    byteAt vm' (dstva + k) = src[k]? :=
  copyoutLoop_spec h hk

end LiberalOS.Kernel
