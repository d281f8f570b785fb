import Mathlib.Tactic.Ring
import Mathlib.Data.List.Basic
import Mathlib.Logic.Function.Basic

/-!
# User address spaces

The user half of `kernel/vm.c`. A page table maps page numbers to the user pages below
`TRAPFRAME`; `uint64` arithmetic is `Nat` arithmetic reduced where it can wrap. `kalloc` and the
page-table pages of `walk` may fail at any page, which is the environment's choice.

An address space carries the bound on its size, so no state can hold a size past `TRAPFRAME`.
-/
namespace LiberalOS.Kernel

abbrev pgsize : Nat := 4096
def maxva : Nat := 2 ^ 38
def trapframe : Nat := maxva - 2 * pgsize

theorem trapframe_eq : trapframe = 274877898752 := by decide

theorem pgsize_le_trapframe : pgsize ≤ trapframe := by decide

/-- Truncation to `uint64`. -/
def u64 (x : Int) : Nat := (x % 2 ^ 64).toNat

/-- The conversion of a register to `int` in `argint`. -/
def argint (raw : Nat) : Int := (raw : Int).bmod 4294967296

def pgroundup (a : Nat) : Nat := (a + 4095) % 2 ^ 64 / pgsize * pgsize
def pgrounddown (a : Nat) : Nat := a / pgsize * pgsize

/-- A mapped page with the permission bits that are read. -/
structure Page where
  user : Bool
  write : Bool
  data : Nat → UInt8

def Page.zero : Page := ⟨true, true, fun _ => 0⟩

/-- Mapped pages by page number. -/
abbrev PageTable := Nat → Option Page

structure AddressSpace where
  sz : Nat
  pages : PageTable
  sz_le : sz ≤ trapframe

/-- Which allocations succeed, by the number of the page they are for. -/
structure AllocEnv where
  kalloc : Nat → Bool
  walk : Nat → Bool

/-- Memory in which every allocation succeeds. -/
def AllocEnv.free : AllocEnv := ⟨fun _ => true, fun _ => true⟩

/-- The number of pages that start below `sz`. -/
def numPages (sz : Nat) : Nat := (sz + 4095) / pgsize

theorem numPages_mono {a b : Nat} (h : a ≤ b) : numPages a ≤ numPages b :=
  Nat.div_le_div_right (by omega)

/-- No size of an address space wraps when it is rounded. -/
theorem pgroundup_div {a : Nat} (h : a ≤ trapframe) : pgroundup a / pgsize = numPages a := by
  rw [trapframe_eq] at h
  simp only [pgroundup, numPages, pgsize]
  omega

/-! ## Growing and shrinking -/

def uvmunmap (pt : PageTable) (first npages : Nat) : PageTable := fun n =>
  if first ≤ n ∧ n < first + npages then none else pt n

/-- The new size, and the table without the pages above it. -/
def uvmdealloc (pt : PageTable) (oldsz newsz : Nat) : Nat × PageTable :=
  if newsz ≥ oldsz then (oldsz, pt)
  else if pgroundup newsz < pgroundup oldsz then
    (newsz, uvmunmap pt (pgroundup newsz / pgsize)
      ((pgroundup oldsz - pgroundup newsz) / pgsize))
  else (newsz, pt)

theorem uvmdealloc_le (pt : PageTable) (oldsz newsz : Nat) :
    (uvmdealloc pt oldsz newsz).1 ≤ oldsz := by
  unfold uvmdealloc
  split
  · exact Nat.le_refl _
  · split <;> exact Nat.le_of_lt (Nat.lt_of_not_le ‹_›)

/-- The loop of `uvmalloc` over `k` pages from page `a`: whether it got through, the page it
stopped at and the table. A page that is already mapped is a kernel panic. -/
def uvmallocLoop (env : AllocEnv) : PageTable → Nat → Nat → Option (Bool × Nat × PageTable)
  | pt, a, 0 => some (true, a, pt)
  | pt, a, k + 1 =>
    if env.kalloc a then
      match pt a with
      | some _ => none
      | none =>
        if env.walk a then
          uvmallocLoop env (Function.update pt a (some Page.zero)) (a + 1) k
        else some (false, a, pt)
    else some (false, a, pt)

/-- The new size, or 0 after a failed allocation. -/
def uvmalloc (env : AllocEnv) (pt : PageTable) (oldsz newsz : Nat) : Option (Nat × PageTable) :=
  if newsz < oldsz then some (oldsz, pt)
  else
    let first := pgroundup oldsz / pgsize
    match uvmallocLoop env pt first (numPages newsz - first) with
    | none => none
    | some (true, _, pt) => some (newsz, pt)
    | some (false, a, pt) => some (0, (uvmdealloc pt (a * pgsize) (first * pgsize)).2)

theorem uvmalloc_size {env : AllocEnv} {pt pt' : PageTable} {oldsz newsz sz : Nat}
    (hle : oldsz ≤ newsz) (h : uvmalloc env pt oldsz newsz = some (sz, pt')) :
    sz = newsz ∨ sz = 0 := by
  rw [uvmalloc, if_neg (by omega)] at h
  dsimp only at h
  split at h
  · cases h
  · exact Or.inl (by simpa using (congrArg Prod.fst (Option.some.inj h)).symm)
  · exact Or.inr (by simpa using (congrArg Prod.fst (Option.some.inj h)).symm)

theorem uvmalloc_le {env : AllocEnv} {pt pt' : PageTable} {oldsz newsz sz bound : Nat}
    (h : uvmalloc env pt oldsz newsz = some (sz, pt')) (hold : oldsz ≤ bound)
    (hnew : newsz ≤ bound) : sz ≤ bound := by
  by_cases hlt : newsz < oldsz
  · rw [uvmalloc, if_pos hlt] at h
    obtain rfl : oldsz = sz := congrArg Prod.fst (Option.some.inj h)
    exact hold
  · rcases uvmalloc_size (Nat.le_of_not_lt hlt) h with rfl | rfl
    · exact hnew
    · exact Nat.zero_le _

/-! ## Copying and faulting -/

/-- Copy every mapped page below `sz` into a new table; `none` when an allocation fails. -/
def uvmcopy (env : AllocEnv) (old : PageTable) (sz : Nat) : Option PageTable :=
  (List.range (numPages sz)).foldlM (fun new n =>
    match old n with
    | none => some new
    | some page =>
      if env.kalloc n && env.walk n then some (Function.update new n (some page)) else none)
    fun _ => none

/-- Map a zeroed page at a lazily allocated address; `none` for the result 0. -/
def vmfault (env : AllocEnv) (vm : AddressSpace) (va : Nat) : Option AddressSpace :=
  if va ≥ vm.sz then none
  else
    let n := va / pgsize
    match vm.pages n with
    | some _ => none
    | none =>
      if env.kalloc n && env.walk n then
        some { vm with pages := Function.update vm.pages n (some Page.zero) }
      else none

theorem vmfault_sz {env : AllocEnv} {vm vm' : AddressSpace} {va : Nat}
    (h : vmfault env vm va = some vm') : vm'.sz = vm.sz := by
  unfold vmfault at h
  dsimp only at h
  split at h
  · cases h
  split at h
  · cases h
  split at h
  · exact Option.some.inj h ▸ rfl
  · cases h

end LiberalOS.Kernel
