import Mathlib.Data.Fintype.Basic
import LiberalOS.Foundation.Execution
import LiberalOS.Kernel.Scheduler
import LiberalOS.Kernel.Vm

/-!
# The memory quota

`setquota`, the size-changing system calls and page faults, over the process table. A process is
*capped* at `q` from a `setquota(q)` it makes while it has at most `q` pages until its next
`setquota` or `exec`, and so are its descendants until theirs. Caps are bookkeeping that no step
reads.

`growproc` refuses to grow past the quota. The lazy branch of `sys_sbrk` moves `sz` without asking,
so the quota is kept in exactly those runs in which every lazy request of a capped process fits.

## Main results

* `quotaKept_iff_lazyFits` — that condition is exact, for every run.
-/
namespace LiberalOS.Kernel
open Foundation

/-! ## System calls -/

/-- The fields of `struct proc` that decide and record growth. -/
structure ProcMem where
  vm : AddressSpace
  memQuota : Int
  quotaDenied : Nat

/-- The size after adding `n` bytes, as `uint64` arithmetic computes it. -/
def grown (p : ProcMem) (n : Int) : Nat := u64 (p.vm.sz + n)

/-- Grow or shrink by `n` bytes: the return value and the process, or a kernel panic. -/
def growproc (env : AllocEnv) (p : ProcMem) (n : Int) : Option (Int × ProcMem) :=
  if n > 0 then
    if hbound : grown p n > trapframe then some (-1, p)
    else if p.memQuota > 0 ∧ ((pgroundup (grown p n) / pgsize : Nat) : Int) > p.memQuota then
      some (-1, { p with quotaDenied := p.quotaDenied + 1 })
    else
      match halloc : uvmalloc env p.vm.pages p.vm.sz (grown p n) with
      | none => none
      | some (sz, pages) =>
        if sz = 0 then some (-1, { p with vm := { p.vm with pages := pages } })
        else
          have hle := uvmalloc_le halloc p.vm.sz_le (Nat.le_of_not_lt hbound)
          some (0, { p with vm := ⟨sz, pages, hle⟩ })
  else if n < 0 then
    let r := uvmdealloc p.vm.pages p.vm.sz (grown p n)
    some (0, { p with vm := ⟨r.1, r.2, (uvmdealloc_le ..).trans p.vm.sz_le⟩ })
  else some (0, p)

def sbrkEager : Int := 1

/-- `sys_sbrk` on the registers `a0` (increment) and `a1` (mode). -/
def sysSbrk (env : AllocEnv) (p : ProcMem) (a0 a1 : Nat) : Option (Int × ProcMem) :=
  let n := argint a0
  let addr := p.vm.sz
  if argint a1 = sbrkEager ∨ n < 0 then
    match growproc env p n with
    | none => none
    | some (r, p) => some (if r < 0 then -1 else addr, p)
  else if grown p n < addr then some (-1, p)
  else if hbound : grown p n > trapframe then some (-1, p)
  else some (addr, { p with vm := ⟨grown p n, p.vm.pages, Nat.le_of_not_lt hbound⟩ })

/-- Returns the previous quota. -/
def sysSetquota (p : ProcMem) (a0 : Nat) : Int × ProcMem :=
  let pages := argint a0
  let pages := if pages < 0 then 0 else pages
  (p.memQuota, { p with memQuota := pages })

/-- What `growproc` does to the size. -/
theorem growproc_cases {env : AllocEnv} {p p' : ProcMem} {n r : Int}
    (h : growproc env p n = some (r, p')) :
    p'.memQuota = p.memQuota ∧ (p'.vm.sz ≤ p.vm.sz ∨
      p'.vm.sz ≤ trapframe ∧ ¬ (p.memQuota > 0 ∧
        ((pgroundup p'.vm.sz / pgsize : Nat) : Int) > p.memQuota)) := by
  unfold growproc at h
  split at h
  · split at h
    · obtain ⟨-, rfl⟩ := Prod.mk.inj (Option.some.inj h)
      exact ⟨rfl, Or.inl (Nat.le_refl _)⟩
    split at h
    · obtain ⟨-, rfl⟩ := Prod.mk.inj (Option.some.inj h)
      exact ⟨rfl, Or.inl (Nat.le_refl _)⟩
    · next hbound hquota =>
      split at h
      · cases h
      · next sz pages halloc =>
        split at h
        · obtain ⟨-, rfl⟩ := Prod.mk.inj (Option.some.inj h)
          exact ⟨rfl, Or.inl (Nat.le_refl _)⟩
        · next hne =>
          obtain ⟨-, rfl⟩ := Prod.mk.inj (Option.some.inj h)
          refine ⟨rfl, ?_⟩
          by_cases hlt : grown p n < p.vm.sz
          · rw [uvmalloc, if_pos hlt] at halloc
            exact Or.inl (Nat.le_of_eq (congrArg Prod.fst (Option.some.inj halloc)).symm)
          · obtain rfl := (uvmalloc_size (Nat.le_of_not_lt hlt) halloc).resolve_right hne
            exact Or.inr ⟨Nat.le_of_not_lt hbound, hquota⟩
  · split at h
    · obtain ⟨-, rfl⟩ := Prod.mk.inj (Option.some.inj h)
      exact ⟨rfl, Or.inl (uvmdealloc_le ..)⟩
    · obtain ⟨-, rfl⟩ := Prod.mk.inj (Option.some.inj h)
      exact ⟨rfl, Or.inl (Nat.le_refl _)⟩

/-- A request in the lazy branch that is granted. -/
def LazyGrant (p : ProcMem) (a0 a1 : Nat) : Prop :=
  argint a1 ≠ sbrkEager ∧ 0 ≤ argint a0 ∧ p.vm.sz + argint a0 ≤ trapframe

/-- The size a granted lazy request leads to. -/
def lazySize (p : ProcMem) (a0 : Nat) : Nat := p.vm.sz + (argint a0).toNat

theorem grown_of_nonneg {p : ProcMem} {n : Int} (h0 : 0 ≤ n) (h1 : n < 2 ^ 32) :
    grown p n = p.vm.sz + n.toNat := by
  have hsz := p.vm.sz_le
  rw [trapframe_eq] at hsz
  simp only [grown, u64]
  omega

theorem argint_lt (raw : Nat) : argint raw < 2 ^ 32 := by
  have h := Int.bmod_lt (x := (raw : Int)) (m := 4294967296) (by omega)
  unfold argint
  omega

/-- What `sys_sbrk` does to the size: the lazy branch asks for no quota. -/
theorem sysSbrk_cases {env : AllocEnv} {p p' : ProcMem} {a0 a1 : Nat} {r : Int}
    (h : sysSbrk env p a0 a1 = some (r, p')) :
    p'.memQuota = p.memQuota ∧
      (LazyGrant p a0 a1 ∧ p'.vm.sz = lazySize p a0 ∨
        ¬ LazyGrant p a0 a1 ∧ (p'.vm.sz ≤ p.vm.sz ∨ p'.vm.sz ≤ trapframe ∧ ¬ (p.memQuota > 0 ∧
          ((pgroundup p'.vm.sz / pgsize : Nat) : Int) > p.memQuota))) := by
  unfold sysSbrk at h
  dsimp only at h
  split at h
  · next heager =>
    have hno : ¬ LazyGrant p a0 a1 := by
      rintro ⟨hmode, hn, -⟩
      rcases heager with he | hneg
      · exact hmode he
      · omega
    split at h
    · cases h
    · next r' q hgrow =>
      obtain ⟨-, rfl⟩ := Prod.mk.inj (Option.some.inj h)
      obtain ⟨hquota, hsize⟩ := growproc_cases hgrow
      exact ⟨hquota, Or.inr ⟨hno, hsize⟩⟩
  · next hlazy =>
    obtain ⟨hmode, hn⟩ := not_or.mp hlazy
    have hgrown := grown_of_nonneg (p := p) (Int.not_lt.mp hn) (argint_lt a0)
    rw [if_neg (by omega)] at h
    split at h
    · next hbound =>
      obtain ⟨-, rfl⟩ := Prod.mk.inj (Option.some.inj h)
      refine ⟨rfl, Or.inr ⟨?_, Or.inl (Nat.le_refl _)⟩⟩
      rintro ⟨-, -, hfit⟩
      omega
    · next hbound =>
      obtain ⟨-, rfl⟩ := Prod.mk.inj (Option.some.inj h)
      exact ⟨rfl, Or.inl ⟨⟨hmode, by omega, by omega⟩, by rw [lazySize, ← hgrown]⟩⟩

/-! ## The process table -/



/-- The process table, with the caps beside it. -/
structure QuotaSystem where
  proc : Fin nproc → Option ProcMem
  cap : Fin nproc → Option Nat

/-- A table in which no process is capped yet. -/
def QuotaSystem.ofProcs (proc : Fin nproc → Option ProcMem) : QuotaSystem := ⟨proc, fun _ => none⟩

/-- What the process in a slot does. `exit` stands for the exit and the `wait` that frees the slot;
`exec` brings in any new image. A fault that `vmfault` does not serve kills, which is an `exit`. -/
inductive QuotaEvent where
  | setquota (i : Fin nproc) (a0 : Nat)
  | sbrk (i : Fin nproc) (env : AllocEnv) (a0 a1 : Nat)
  | fault (i : Fin nproc) (env : AllocEnv) (va : Nat)
  | fork (i : Fin nproc) (env : AllocEnv) (pagetableOk : Bool)
  | exec (i : Fin nproc) (image : AddressSpace)
  | exit (i : Fin nproc)

def QuotaEvent.slot : QuotaEvent → Fin nproc
  | .setquota i _ | .sbrk i _ _ _ | .fault i _ _ | .fork i _ _ | .exec i _ | .exit i => i

/-- The slot `allocproc` takes. -/
def allocproc (proc : Fin nproc → Option ProcMem) : Option (Fin nproc) :=
  (List.finRange nproc).find? fun i => (proc i).isNone

/-- The memory part of `kfork`: the child's process, unless a copy fails. -/
def kforkMem (env : AllocEnv) (p : ProcMem) : Option ProcMem :=
  (uvmcopy env p.vm.pages p.vm.sz).map fun pages =>
    ⟨{ p.vm with pages := pages }, p.memQuota, 0⟩

/-- The cap a `setquota` establishes. -/
def capOf (p : ProcMem) (quota : Int) : Option Nat :=
  if 0 < quota ∧ ((pgroundup p.vm.sz / pgsize : Nat) : Int) ≤ quota then some quota.toNat else none

def QuotaSystem.put (s : QuotaSystem) (i : Fin nproc) (p : Option ProcMem) (c : Option Nat) :
    QuotaSystem := ⟨Function.update s.proc i p, Function.update s.cap i c⟩

/-- One step of the process `p` in slot `i`. -/
def quotaStepOf (s : QuotaSystem) (p : ProcMem) : QuotaEvent → Option QuotaSystem
  | .setquota i a0 =>
    let p' := (sysSetquota p a0).2
    some (s.put i (some p') (capOf p' p'.memQuota))
  | .sbrk i env a0 a1 => (sysSbrk env p a0 a1).map fun r => s.put i (some r.2) (s.cap i)
  | .fault i env va =>
    match vmfault env p.vm va with
    | some vm => some (s.put i (some { p with vm := vm }) (s.cap i))
    | none => some s
  | .fork i env pagetableOk =>
    match allocproc s.proc, kforkMem env p with
    | some child, some np => some (if pagetableOk then s.put child (some np) (s.cap i) else s)
    | _, _ => some s
  | .exec i image => some (s.put i (some { p with vm := image }) none)
  | .exit i => some (s.put i none none)

def quotaStep (s : QuotaSystem) (e : QuotaEvent) : Option QuotaSystem :=
  (s.proc e.slot).bind fun p => quotaStepOf s p e

/-! ## Statement -/

/-- User pages mapped below `sz`. -/
def mappedBelow (vm : AddressSpace) : Nat :=
  (List.range (numPages vm.sz)).countP fun n => (vm.pages n).isSome

/-- Every capped process is within its cap, in size and in mapped pages. -/
def WithinCaps (s : QuotaSystem) : Prop :=
  ∀ i, ∀ q ∈ s.cap i, ∃ p ∈ s.proc i, pgroundup p.vm.sz / pgsize ≤ q ∧ mappedBelow p.vm ≤ q

def QuotaKept (_ : QuotaSystem) (_ : QuotaEvent) (t : QuotaSystem) : Prop := WithinCaps t

instance (s : QuotaSystem) (e : QuotaEvent) (t : QuotaSystem) : Decidable (QuotaKept s e t) :=
  inferInstanceAs (Decidable (∀ i, ∀ q ∈ t.cap i, ∃ p ∈ t.proc i,
    pgroundup p.vm.sz / pgsize ≤ q ∧ mappedBelow p.vm ≤ q))

/-- A lazy request of a capped process that is granted stays within its cap. -/
def LazyFits (s : QuotaSystem) : QuotaEvent → QuotaSystem → Prop
  | .sbrk i _ a0 a1, _ => ∀ q ∈ s.cap i, ∀ p ∈ s.proc i, LazyGrant p a0 a1 →
      pgroundup (lazySize p a0) / pgsize ≤ q
  | _, _ => True

theorem mappedBelow_le (vm : AddressSpace) : mappedBelow vm ≤ pgroundup vm.sz / pgsize := by
  rw [pgroundup_div vm.sz_le, mappedBelow]
  exact (List.countP_le_length).trans_eq (by simp)

/-! ## Invariant and runs -/

/-- A capped slot holds a process whose quota is the cap and which is within it. -/
def CapsHeld (s : QuotaSystem) : Prop :=
  ∀ i, ∀ q ∈ s.cap i, ∃ p ∈ s.proc i, p.memQuota = q ∧ 0 < q ∧ pgroundup p.vm.sz / pgsize ≤ q

theorem CapsHeld.withinCaps {s : QuotaSystem} (h : CapsHeld s) : WithinCaps s := by
  intro i q hq
  obtain ⟨p, hp, -, -, hle⟩ := h i q hq
  exact ⟨p, hp, hle, (mappedBelow_le p.vm).trans hle⟩

/-- Filling a slot keeps the caps of the others, so only the new pair has to be checked. -/
theorem CapsHeld.put {s : QuotaSystem} (h : CapsHeld s) {i : Fin nproc} {p : Option ProcMem}
    {c : Option Nat}
    (hnew : ∀ q ∈ c, ∃ p' ∈ p, p'.memQuota = q ∧ 0 < q ∧ pgroundup p'.vm.sz / pgsize ≤ q) :
    CapsHeld (s.put i p c) := by
  intro j q hq
  by_cases hij : j = i
  · subst hij
    simp only [QuotaSystem.put, Function.update_self] at hq ⊢
    exact hnew q hq
  · simp only [QuotaSystem.put, Function.update_of_ne hij] at hq ⊢
    exact h j q hq

theorem CapsHeld.setquota {s : QuotaSystem} (h : CapsHeld s) (i : Fin nproc) (p : ProcMem) :
    CapsHeld (s.put i (some p) (capOf p p.memQuota)) := by
  refine h.put fun q hq => ⟨p, rfl, ?_⟩
  rw [capOf] at hq
  split at hq
  · next hcap =>
    obtain rfl : p.memQuota.toNat = q := by simpa using hq
    omega
  · simp at hq

/-- Pages only shrink with the size. -/
theorem pgroundup_div_mono {a b : Nat} (h : a ≤ b) (hb : b ≤ trapframe) :
    pgroundup a / pgsize ≤ pgroundup b / pgsize := by
  rw [pgroundup_div hb, pgroundup_div (h.trans hb)]
  exact numPages_mono h

/-- After an `sbrk` of a capped process, its size is within the cap exactly if a granted lazy
request fits. -/
theorem sbrk_within_iff {env : AllocEnv} {p p' : ProcMem} {a0 a1 q : Nat} {r : Int}
    (h : sysSbrk env p a0 a1 = some (r, p')) (hquota : p.memQuota = q) (hpos : 0 < q)
    (hle : pgroundup p.vm.sz / pgsize ≤ q) :
    pgroundup p'.vm.sz / pgsize ≤ q ↔
      (LazyGrant p a0 a1 → pgroundup (lazySize p a0) / pgsize ≤ q) := by
  obtain ⟨-, ⟨hlazy, hsize⟩ | ⟨hno, hsize⟩⟩ := sysSbrk_cases h
  · rw [hsize]
    exact ⟨fun h _ => h, fun h => h hlazy⟩
  · refine iff_of_true ?_ fun hlazy => absurd hlazy hno
    rcases hsize with hshrink | ⟨-, hcheck⟩
    · exact (pgroundup_div_mono hshrink p.vm.sz_le).trans hle
    · omega

theorem CapsHeld.sbrk_iff {s t : QuotaSystem} (h : CapsHeld s) {i : Fin nproc} {env : AllocEnv}
    {a0 a1 : Nat} (hstep : quotaStep s (.sbrk i env a0 a1) = some t) :
    (WithinCaps t ↔ LazyFits s (.sbrk i env a0 a1) t) ∧
      (LazyFits s (.sbrk i env a0 a1) t → CapsHeld t) := by
  obtain ⟨p, hp, hof⟩ := Option.bind_eq_some_iff.mp hstep
  simp only [quotaStepOf, Option.map_eq_some_iff] at hof
  obtain ⟨⟨r, p'⟩, hsbrk, rfl⟩ := hof
  change s.proc i = some p at hp
  have hheld : LazyFits s (.sbrk i env a0 a1) (s.put i (some p') (s.cap i)) →
      CapsHeld (s.put i (some p') (s.cap i)) := by
    intro hfits
    refine h.put fun q hq => ?_
    obtain ⟨p₀, hp₀, hquota, hpos, hle⟩ := h i q hq
    obtain rfl := Option.mem_unique hp₀ hp
    have hfit : LazyGrant p₀ a0 a1 → pgroundup (lazySize p₀ a0) / pgsize ≤ q := hfits q hq p₀ hp
    exact ⟨p', rfl, (sysSbrk_cases hsbrk).1.trans hquota, hpos,
      (sbrk_within_iff hsbrk hquota hpos hle).mpr hfit⟩
  refine ⟨⟨fun hwithin q hq p₁ hp₁ => ?_, fun hfits => (hheld hfits).withinCaps⟩, hheld⟩
  obtain ⟨p₀, hp₀, hquota, hpos, hle⟩ := h i q hq
  obtain rfl := Option.mem_unique hp₀ hp
  obtain rfl := Option.mem_unique hp₀ hp₁
  obtain ⟨p₂, hp₂, hle₂, -⟩ := hwithin i q (by simpa [QuotaSystem.put] using hq)
  obtain rfl : p' = p₂ := by simpa [QuotaSystem.put] using hp₂
  exact (sbrk_within_iff hsbrk hquota hpos hle).mp hle₂

/-- Every other step keeps the caps by itself. -/
theorem CapsHeld.step {s t : QuotaSystem} (h : CapsHeld s) {e : QuotaEvent}
    (hstep : quotaStep s e = some t) (hsbrk : ∀ i env a0 a1, e ≠ .sbrk i env a0 a1) :
    CapsHeld t := by
  obtain ⟨p, hp, hof⟩ := Option.bind_eq_some_iff.mp hstep
  cases e with
  | setquota i a0 =>
    obtain rfl := Option.some.inj hof
    exact h.setquota i _
  | sbrk i env a0 a1 => exact absurd rfl (hsbrk i env a0 a1)
  | fault i env va =>
    simp only [quotaStepOf] at hof
    split at hof <;> obtain rfl := Option.some.inj hof
    · next vm hfault =>
      refine h.put fun q hq => ?_
      obtain ⟨p₀, hp₀, hquota, hpos, hle⟩ := h i q hq
      obtain rfl := Option.mem_unique hp₀ hp
      exact ⟨_, rfl, hquota, hpos, (vmfault_sz hfault).symm ▸ hle⟩
    · exact h
  | fork i env pagetableOk =>
    simp only [quotaStepOf] at hof
    split at hof <;> obtain rfl := Option.some.inj hof
    · next child np _ hnp =>
      split
      · refine h.put fun q hq => ?_
        obtain ⟨p₀, hp₀, hquota, hpos, hle⟩ := h i q hq
        obtain rfl := Option.mem_unique hp₀ hp
        obtain ⟨pages, -, rfl⟩ := Option.map_eq_some_iff.mp hnp
        exact ⟨_, rfl, hquota, hpos, hle⟩
      · exact h
    · exact h
  | exec i image =>
    obtain rfl := Option.some.inj hof
    exact h.put (by simp)
  | exit i =>
    obtain rfl := Option.some.inj hof
    exact h.put (by simp)

/-- From any process table, in any run: every capped process stays within its cap, in size and in
mapped pages, exactly if every lazy request that is granted to one fits. -/
theorem quotaKept_iff_lazyFits (proc : Fin nproc → Option ProcMem) (events : List QuotaEvent) :
    Along quotaStep QuotaKept (.ofProcs proc) events ↔
      Along quotaStep LazyFits (.ofProcs proc) events := by
  have hinit : CapsHeld (.ofProcs proc) := fun i q hq => by simp [QuotaSystem.ofProcs] at hq
  refine along_iff_of_invariant CapsHeld ?_ ?_ hinit (along_true _ events)
  · intro s e t hs hstep _
    cases e with
    | sbrk i env a0 a1 => exact (hs.sbrk_iff hstep).1
    | _ => exact iff_of_true (hs.step hstep (by simp)).withinCaps trivial
  · intro s e t hs hstep _ hfits
    cases e with
    | sbrk i env a0 a1 => exact (hs.sbrk_iff hstep).2 hfits
    | _ => exact hs.step hstep (by simp)

/-- A process of one page. -/
def onePage : ProcMem :=
  ⟨⟨pgsize, fun n => if n = 0 then some .zero else none, pgsize_le_trapframe⟩, 0, 0⟩

/-- `setquota(4)`, `sbrklazy(8 * PGSIZE)` and a store to each new page. -/
def lazyPastQuota : List QuotaEvent :=
  let env : AllocEnv := ⟨fun _ => true, fun _ => true⟩
  .setquota 0 4 :: .sbrk 0 env (8 * pgsize) 2 ::
    (List.range 8).map fun n => .fault 0 env ((n + 1) * pgsize)

/-- The lazy mode takes a process of one page and quota 4 to nine mapped pages. -/
theorem lazy_sbrk_exceeds_quota :
    ¬ ∀ (proc : Fin nproc → Option ProcMem) (events : List QuotaEvent),
      Along quotaStep QuotaKept (.ofProcs proc) events := by
  intro h
  have hrun := h (fun i => if i = 0 then some onePage else none) lazyPastQuota
  exact absurd hrun (by decide +kernel)

end LiberalOS.Kernel
