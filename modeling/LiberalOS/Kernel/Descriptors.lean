import LiberalOS.Kernel.Files
import LiberalOS.Kernel.ProxyLock

/-!
# Descriptors

The system calls that open and close files, of `kernel/sysfile.c`, with `fork`, `exit` and `wait` of
`kernel/proc.c` as far as descriptors go, for all processes at once. A transition is one critical
section of the file table or of a pipe and what the process does by itself before and after it; only
its own calls change its table of descriptors, and until it is RUNNABLE those of its parent.

## Main results

* `ref_eq` — the count of a file is the number of the references to it.
* `call_isSome` — no call panics on a free file or reaches a pipe that has been freed.
* `call_completes` — a process that is in a call comes to its end.
* `descriptor_open` — what a descriptor stands for is there, and a pipe has that end open.
* `isOpen_iff` — an end of a pipe is open as long as someone has it.
* `fork_ofile` — a child begins with the descriptors of its parent.
-/
namespace LiberalOS.Kernel.Files
open Foundation

/-! ## Processes -/

/-- `enum procstate`; SLEEPING, RUNNABLE and RUNNING are one here. -/
inductive Life where
  | unused
  | used
  | alive
  | zombie
  deriving DecidableEq

/-- A `fileclose` that a call has still to make, or the rest of one. -/
inductive Closing where
  | fileclose (f : Fin nfile)
  | release (ff : File)
  deriving DecidableEq

/-- Where a process is in a call: in `pipealloc` with one file or two, in the loop of `kfork` with
its child, in the loop of `kexit`. -/
inductive Task where
  | none
  | pipe1 (rf : Fin nfile)
  | pipe2 (rf wf : Fin nfile)
  | forkCopy (np : Fin nproc) (i : Nat)
  | exitClose (fd : Nat)
  deriving DecidableEq

/-- `result` is what the last call has returned, for `pipe` with the two numbers it has stored. -/
structure Proc where
  life : Life
  ofile : Fin nofile → Option (Fin nfile)
  closing : List Closing
  task : Task
  result : List Int

structure State where
  table : Table
  proc : Fin nproc → Proc

/-- After `userinit`. -/
def boot : State where
  table := .init
  proc p := ⟨if p = initproc then .alive else .unused, fun _ => none, [], .none, []⟩

/-- The process is in user space. -/
def Proc.idle (q : Proc) : Prop := q.closing = [] ∧ q.task = .none

instance (q : Proc) : Decidable q.idle := inferInstanceAs (Decidable (_ ∧ _))

def State.put (s : State) (t : Table) (p : Fin nproc) (q : Proc) : State :=
  ⟨t, Function.update s.proc p q⟩

/-- The file that a number stands for. -/
def argfd (q : Proc) (fd : Int) : Option (Fin nofile × Fin nfile) :=
  if h : 0 ≤ fd ∧ fd.toNat < nofile then (q.ofile ⟨fd.toNat, h.2⟩).map (⟨fd.toNat, h.2⟩, ·)
  else none

/-- The lowest number that is free. -/
def fdalloc (q : Proc) (f : Fin nfile) : Option (Proc × Fin nofile) :=
  ((List.finRange nofile).find? fun fd => (q.ofile fd).isNone).map fun fd =>
    ({ q with ofile := Function.update q.ofile fd (some f) }, fd)

/-- A file that was closed for the last time has something to release. -/
def Proc.closed (q : Proc) (ff : Option File) : Proc :=
  { q with closing := ff.toList.map .release ++ q.closing }

/-! ## Calls -/

def sysOpen (s : State) (p : Fin nproc) (device : Bool) (ip omode : Nat) : Option State :=
  match filealloc s.table with
  | none => some (s.put s.table p { s.proc p with result := [-1] })
  | some (t, f) =>
    match fdalloc (s.proc p) f with
    | none => some (s.put t p { s.proc p with closing := [.fileclose f], result := [-1] })
    | some (q, fd) => some (s.put (t.openFile f device ip omode) p { q with result := [fd] })

def sysDup (s : State) (p : Fin nproc) (fd : Int) : Option State :=
  match argfd (s.proc p) fd with
  | none => some (s.put s.table p { s.proc p with result := [-1] })
  | some (_, f) =>
    match fdalloc (s.proc p) f with
    | none => some (s.put s.table p { s.proc p with result := [-1] })
    | some (q, nfd) => (filedup s.table f).map fun t => s.put t p { q with result := [nfd] }

def sysClose (s : State) (p : Fin nproc) (fd : Int) : Option State :=
  match argfd (s.proc p) fd with
  | none => some (s.put s.table p { s.proc p with result := [-1] })
  | some (i, f) => (fileclose s.table f).map fun (t, ff) =>
    s.put t p (({ s.proc p with ofile := Function.update (s.proc p).ofile i none, result := [0] } :
      Proc).closed ff)

def sysPipe (s : State) (p : Fin nproc) : Option State :=
  match filealloc s.table with
  | none => some (s.put s.table p { s.proc p with result := [-1] })
  | some (t, rf) => some (s.put t p { s.proc p with task := .pipe1 rf })

/-- Both ends of a pipe get their numbers. -/
def pipeInstall (q : Proc) (rf wf : Fin nfile) : Option Proc :=
  (fdalloc q rf).bind fun (q, fd0) => (fdalloc q wf).map fun (q, fd1) =>
    { q with task := .none, result := [0, fd0, fd1] }

/-- The end of `pipealloc`, with the page that `kalloc` returns, and the rest of `sys_pipe`;
`copyout` says whether the numbers could be stored. -/
def pipeEnd (s : State) (p : Fin nproc) (rf wf : Fin nfile) (page : Option Nat) (copyout : Bool) :
    Option State :=
  let fail := { s.proc p with
    closing := [.fileclose rf, .fileclose wf], task := .none, result := [-1] }
  match page with
  | none => some (s.put s.table p fail)
  | some pi =>
    if (s.table.pipe pi).isSome then none
    else
      match pipeInstall (s.proc p) rf wf with
      | none => some (s.put (s.table.newPipe rf wf pi) p fail)
      | some q => some (s.put (s.table.newPipe rf wf pi) p (if copyout then q else fail))

/-- An iteration of the loop of `kfork`, or what follows it. -/
def forkStep (s : State) (p np : Fin nproc) (i : Nat) : Option State :=
  if h : i < nofile then
    match (s.proc p).ofile ⟨i, h⟩ with
    | none => some (s.put s.table p { s.proc p with task := .forkCopy np (i + 1) })
    | some f => (filedup s.table f).map fun t =>
      (s.put t np { s.proc np with
        ofile := Function.update (s.proc np).ofile ⟨i, h⟩ (some f) }).put t p
        { s.proc p with task := .forkCopy np (i + 1) }
  else
    some ((s.put s.table np { s.proc np with life := .alive, result := [0] }).put s.table p
      { s.proc p with task := .none })

/-- An iteration of the loop of `kexit`, or what follows it. -/
def exitStep (s : State) (p : Fin nproc) (fd : Nat) : Option State :=
  if h : fd < nofile then
    match (s.proc p).ofile ⟨fd, h⟩ with
    | none => some (s.put s.table p { s.proc p with task := .exitClose (fd + 1) })
    | some f => (fileclose s.table f).map fun (t, ff) =>
      s.put t p (({ s.proc p with ofile := Function.update (s.proc p).ofile ⟨fd, h⟩ none
                                  task := .exitClose (fd + 1) } : Proc).closed ff)
  else some (s.put s.table p { s.proc p with life := .zombie, task := .none })

/-- A process goes on with the call it is in. -/
def work (s : State) (p : Fin nproc) (page : Option Nat) (copyout : Bool) : Option State :=
  match (s.proc p).closing with
  | .fileclose f :: cs => (fileclose s.table f).map fun (t, ff) =>
    s.put t p (({ s.proc p with closing := cs } : Proc).closed ff)
  | .release ff :: cs => (release s.table ff).map fun t => s.put t p { s.proc p with closing := cs }
  | [] =>
    match (s.proc p).task with
    | .none => none
    | .pipe1 rf =>
      match filealloc s.table with
      | none => some (s.put s.table p
        { s.proc p with closing := [.fileclose rf], task := .none, result := [-1] })
      | some (t, wf) => some (s.put t p { s.proc p with task := .pipe2 rf wf })
    | .pipe2 rf wf => pipeEnd s p rf wf page copyout
    | .forkCopy np i => forkStep s p np i
    | .exitClose fd => exitStep s p fd

/-- The calls of a process. `open` has the inode that `namei` or `create` has found; `fork` has the
slot and the pid of the child. -/
inductive Call where
  | open (device : Bool) (ip omode : Nat)
  | dup (fd : Int)
  | close (fd : Int)
  | pipe
  | fork (np : Fin nproc) (pid : Nat)
  | exit
  deriving DecidableEq

def call (s : State) (p : Fin nproc) : Call → Option State
  | .open device ip omode => sysOpen s p device ip omode
  | .dup fd => sysDup s p fd
  | .close fd => sysClose s p fd
  | .pipe => sysPipe s p
  | .fork np pid =>
    if (s.proc np).life = .unused then
      some ((s.put s.table np { s.proc np with life := .used }).put s.table p
        { s.proc p with task := .forkCopy np 0, result := [pid] })
    else none
  | .exit =>
    if p = initproc then none else some (s.put s.table p { s.proc p with task := .exitClose 0 })

/-- A process makes a call or goes on with one, or its parent frees what is left of it. -/
inductive Label where
  | call (p : Fin nproc) (c : Call)
  | work (p : Fin nproc) (page : Option Nat) (copyout : Bool)
  | reap (p : Fin nproc)
  deriving DecidableEq

def step (s : State) : Label → Option State
  | .call p c => if (s.proc p).life = .alive ∧ (s.proc p).idle then call s p c else none
  | .work p page copyout => work s p page copyout
  | .reap p =>
    if (s.proc p).life = .zombie then some (s.put s.table p { s.proc p with life := .unused })
    else none

/-! ## What a process has -/

def Closing.held : Closing → Multiset (Fin nfile)
  | .fileclose f => {f}
  | .release _ => 0

def Closing.late : Closing → Multiset (Nat × Bool)
  | .fileclose _ => 0
  | .release ff => ff.ends

/-- The files that have no type yet. -/
def Task.fresh : Task → Multiset (Fin nfile)
  | .pipe1 rf => {rf}
  | .pipe2 rf wf => rf ::ₘ {wf}
  | _ => 0

def Proc.own (q : Proc) : Own where
  desc := entries q.ofile
  rest := (q.closing.map Closing.held).sum + q.task.fresh
  fresh := q.task.fresh
  late := (q.closing.map Closing.late).sum

def State.owns (s : State) (p : Fin nproc) : Own := (s.proc p).own

/-- Every reference is somebody's; a free slot has no descriptors, and a child those its parent has
copied. -/
structure State.Inv (s : State) : Prop where
  table : s.table.Inv s.owns
  idle : ∀ p, (s.proc p).life ≠ .alive → (s.proc p).idle
  empty : ∀ p, (s.proc p).life = .unused ∨ (s.proc p).life = .zombie →
    ∀ fd, (s.proc p).ofile fd = none
  forking : ∀ p np i, (s.proc p).task = .forkCopy np i → (s.proc np).life = .used ∧
    ∀ fd : Fin nofile, (s.proc np).ofile fd = if fd.val < i then (s.proc p).ofile fd else none
  forkOne : ∀ p q np i j, (s.proc p).task = .forkCopy np i → (s.proc q).task = .forkCopy np j →
    p = q
  exiting : ∀ p fd, (s.proc p).task = .exitClose fd →
    ∀ j : Fin nofile, j.val < fd → (s.proc p).ofile j = none

section
variable {s u : State} {t : Table} {p np : Fin nproc} {q : Proc} {f : Fin nfile}

@[grind =] theorem put_proc (s : State) (t : Table) (p : Fin nproc) (q : Proc) (r : Fin nproc) :
    (s.put t p q).proc r = if r = p then q else s.proc r := by
  simp [State.put, Function.update_apply]

@[simp] theorem put_table (s : State) (t : Table) (p : Fin nproc) (q : Proc) :
    (s.put t p q).table = t := rfl

theorem put_owns (s : State) (t : Table) (p : Fin nproc) (q : Proc) :
    (s.put t p q).owns = Function.update s.owns p q.own := by
  funext r
  by_cases hr : r = p
  · subst hr
    simp [State.owns, put_proc]
  · simp [State.owns, put_proc, hr]

/-- What a running process may become by itself. -/
structure Proc.Fits (q : Proc) (s : State) (p : Fin nproc) : Prop where
  life : q.life = .alive ∨ q.life = .zombie ∧ q.idle ∧ ∀ fd, q.ofile fd = none
  forking : ∀ np i, q.task = .forkCopy np i → (s.proc np).life = .used ∧
    (∀ fd : Fin nofile, (s.proc np).ofile fd = if fd.val < i then q.ofile fd else none) ∧
    ∀ r, r ≠ p → ∀ j, (s.proc r).task ≠ .forkCopy np j
  exiting : ∀ fd, q.task = .exitClose fd → ∀ j : Fin nofile, j.val < fd → q.ofile j = none

theorem State.Inv.put (h : s.Inv) (hp : (s.proc p).life = .alive)
    (ht : t.Inv (Function.update s.owns p q.own)) (hq : q.Fits s p) : (s.put t p q).Inv := by
  have hlife := hq.life
  refine ⟨by rwa [put_owns], ?_, ?_, ?_, ?_, ?_⟩
  · grind [h.idle]
  · grind [h.empty]
  · intro r np i hr
    by_cases hrp : r = p
    · subst hrp
      rw [put_proc, if_pos rfl] at hr
      have := hq.forking np i hr
      grind
    · rw [put_proc, if_neg hrp] at hr
      have := h.forking r np i hr
      grind
  · intro r r' np i j hr hr'
    by_cases hrp : r = p
    · subst hrp
      rw [put_proc, if_pos rfl] at hr
      have := hq.forking np i hr
      grind
    · by_cases hrp' : r' = p
      · subst hrp'
        rw [put_proc, if_pos rfl] at hr'
        have := hq.forking np j hr'
        grind
      · rw [put_proc, if_neg hrp] at hr
        rw [put_proc, if_neg hrp'] at hr'
        exact h.forkOne r r' np i j hr hr'
  · intro r fd hr
    by_cases hrp : r = p
    · subst hrp
      rw [put_proc, if_pos rfl] at hr ⊢
      exact hq.exiting fd hr
    · rw [put_proc, if_neg hrp] at hr ⊢
      exact h.exiting r fd hr

theorem Proc.Fits.of_plain (hlife : q.life = .alive)
    (htask : q.task = .none ∨ q.task.fresh ≠ 0) : q.Fits s p := by
  refine ⟨Or.inl hlife, fun np i h => ?_, fun fd h => ?_⟩ <;> simp [h, Task.fresh] at htask

/-- A process that is in a call goes on with it. -/
theorem State.Inv.fits_of_same (h : s.Inv) (hlife : q.life = .alive)
    (hofile : q.ofile = (s.proc p).ofile) (htask : q.task = (s.proc p).task) : q.Fits s p := by
  refine ⟨Or.inl hlife, fun np i hq => ?_, fun fd hq => ?_⟩
  · rw [htask] at hq
    rw [hofile]
    exact ⟨(h.forking p np i hq).1, (h.forking p np i hq).2, fun r hr j hj =>
      hr (h.forkOne r p np j i hj hq)⟩
  · rw [hofile]
    exact h.exiting p fd (htask ▸ hq)

theorem fdalloc_eq_some {q' : Proc} {fd : Fin nofile} (h : fdalloc q f = some (q', fd)) :
    q.ofile fd = none ∧ q' = { q with ofile := Function.update q.ofile fd (some f) } := by
  simp only [fdalloc, Option.map_eq_some_iff, Prod.mk.injEq] at h
  obtain ⟨i, hi, rfl, rfl⟩ := h
  exact ⟨by simpa using List.find?_some hi, rfl⟩

theorem argfd_eq_some {fd : Int} {i : Fin nofile} (h : argfd q fd = some (i, f)) :
    q.ofile i = some f ∧ (i.val : Int) = fd := by
  unfold argfd at h
  split at h
  · next hfd =>
    simp only [Option.map_eq_some_iff, Prod.mk.injEq] at h
    obtain ⟨g, hg, rfl, rfl⟩ := h
    exact ⟨hg, Int.toNat_of_nonneg hfd.1⟩
  · cases h

theorem own_ofile {fd : Fin nofile} {x : List Int} (h : q.ofile fd = none) :
    ({ q with ofile := Function.update q.ofile fd (some f), result := x } : Proc).own =
      { q.own with desc := f ::ₘ q.own.desc } := by
  simp [Proc.own, entries_update h]

theorem own_of_idle (h : q.idle) : q.own.rest = 0 ∧ q.own.fresh = 0 ∧ q.own.late = 0 := by
  simp [Proc.own, h.1, h.2, Task.fresh]

theorem State.Inv.put_same (h : s.Inv) (hp : (s.proc p).life = .alive)
    (hown : q.own = (s.proc p).own) (hq : q.Fits s p) : (s.put s.table p q).Inv := by
  refine h.put hp ?_ hq
  rw [hown, show (s.proc p).own = s.owns p from rfl, Function.update_eq_self]
  exact h.table

/-- A call fails at once. -/
theorem State.Inv.put_result (h : s.Inv) (hp : (s.proc p).life = .alive) (x : List Int) :
    (s.put s.table p { s.proc p with result := x }).Inv :=
  h.put_same hp rfl (h.fits_of_same hp rfl rfl)

theorem State.Inv.sysOpen {device : Bool} {ip omode : Nat} (h : s.Inv)
    (hp : (s.proc p).life = .alive) (hidle : (s.proc p).idle)
    (hu : sysOpen s p device ip omode = some u) : u.Inv := by
  obtain ⟨hrest, hfresh, hlate⟩ := own_of_idle hidle
  unfold Files.sysOpen at hu
  split at hu
  · obtain rfl := Option.some.inj hu
    exact h.put_result hp _
  · next t f ht =>
    split at hu
    · obtain rfl := Option.some.inj hu
      refine h.put hp (h.table.filealloc ht rfl ?_ ?_ ?_ ?_) (.of_plain hp (Or.inl hidle.2))
      all_goals
        simp [State.owns, Proc.own, Closing.held, Closing.late, hidle.1, hidle.2, Task.fresh]
    · next q fd hq =>
      obtain rfl := Option.some.inj hu
      obtain ⟨hfd, rfl⟩ := fdalloc_eq_some hq
      have ht' := h.table.filealloc (w := ⟨(s.proc p).own.desc, {f}, {f}, 0⟩) ht rfl
        (by simp [State.owns, hrest]) (by simp [State.owns, hfresh]) (by simp)
        (by simp [State.owns, hlate])
      refine h.put hp ?_ (.of_plain hp (Or.inl hidle.2))
      rw [own_ofile hfd, ← Function.update_idem (v := ⟨(s.proc p).own.desc, {f}, {f}, 0⟩)]
      refine ht'.openFile ?_ ?_ ?_ (fun g hg => ?_) ?_
      · simp [hfresh]
      · simp [Own.held, hrest, ← Multiset.singleton_add, add_comm]
      · simp [hfresh, hrest]
      · simp only [Multiset.mem_cons] at hg
        simpa using hg.symm
      · simp [hlate]

theorem State.Inv.sysDup {fd : Int} (h : s.Inv) (hp : (s.proc p).life = .alive)
    (hidle : (s.proc p).idle) (hu : sysDup s p fd = some u) : u.Inv := by
  unfold Files.sysDup at hu
  split at hu
  · obtain rfl := Option.some.inj hu
    exact h.put_result hp _
  · next i f hf =>
    split at hu
    · obtain rfl := Option.some.inj hu
      exact h.put_result hp _
    · next q nfd hq =>
      obtain ⟨t, ht, rfl⟩ := Option.map_eq_some_iff.mp hu
      obtain ⟨hnfd, rfl⟩ := fdalloc_eq_some hq
      have hmem : f ∈ (s.owns p).desc := mem_entries.mpr ⟨i, (argfd_eq_some hf).1⟩
      refine h.put hp ?_ (.of_plain hp (Or.inl hidle.2))
      rw [own_ofile hnfd]
      exact h.table.filedup ht (h.table.typed p f hmem) rfl rfl rfl rfl

/-- A process loses a descriptor. -/
theorem State.Inv.clear {i : Fin nofile} {ff : Option File} (h : s.Inv)
    (hi : (s.proc p).ofile i = some f) (ht : fileclose s.table f = some (t, ff))
    (hofile : q.ofile = Function.update (s.proc p).ofile i none)
    (hclosing : q.closing = ff.toList.map .release ++ (s.proc p).closing)
    (htask : q.task.fresh = (s.proc p).task.fresh) : t.Inv (Function.update s.owns p q.own) := by
  have hdesc : f ::ₘ q.own.desc = (s.owns p).desc := by
    simp only [Proc.own, State.owns, hofile, entries_clear hi]
  have hrest : q.own.rest = (s.owns p).rest := by
    cases ff <;> simp [Proc.own, State.owns, hclosing, htask, Closing.held]
  refine h.table.fileclose ht ?_ ?_ ?_ ?_ ?_
  · rw [Own.held, Own.held, hrest, ← hdesc, Multiset.cons_add]
  · rw [← hdesc]
    exact Multiset.le_cons_self _ _
  · exact Multiset.le_add_left _ _
  · exact htask.le
  · cases ff <;> simp [Proc.own, State.owns, hclosing, Closing.late]

theorem State.Inv.sysClose {fd : Int} (h : s.Inv) (hp : (s.proc p).life = .alive)
    (hidle : (s.proc p).idle) (hu : sysClose s p fd = some u) : u.Inv := by
  unfold Files.sysClose at hu
  split at hu
  · obtain rfl := Option.some.inj hu
    exact h.put_result hp _
  · next i f hf =>
    obtain ⟨⟨t, ff⟩, ht, rfl⟩ := Option.map_eq_some_iff.mp hu
    exact h.put hp (h.clear (argfd_eq_some hf).1 ht rfl rfl rfl) (.of_plain hp (Or.inl hidle.2))

theorem State.Inv.sysPipe (h : s.Inv) (hp : (s.proc p).life = .alive) (hidle : (s.proc p).idle)
    (hu : sysPipe s p = some u) : u.Inv := by
  unfold Files.sysPipe at hu
  split at hu
  · obtain rfl := Option.some.inj hu
    exact h.put_result hp _
  · next t rf ht =>
    obtain rfl := Option.some.inj hu
    refine h.put hp (h.table.filealloc ht rfl ?_ ?_ ?_ rfl)
      (.of_plain hp (Or.inr (by simp [Task.fresh])))
    all_goals simp [State.owns, Proc.own, hidle.1, hidle.2, Task.fresh]

theorem pipeInstall_eq_some {rf wf : Fin nfile} {q' : Proc} (h : pipeInstall q rf wf = some q') :
    ∃ fd0 fd1, q.ofile fd0 = none ∧ Function.update q.ofile fd0 (some rf) fd1 = none ∧
      q' = { q with
        ofile := Function.update (Function.update q.ofile fd0 (some rf)) fd1 (some wf)
        task := .none
        result := [0, fd0, fd1] } := by
  simp only [pipeInstall, Option.bind_eq_some_iff, Option.map_eq_some_iff] at h
  obtain ⟨⟨q₀, fd0⟩, hq₀, ⟨q₁, fd1⟩, hq₁, rfl⟩ := h
  obtain ⟨hfd0, rfl⟩ := fdalloc_eq_some hq₀
  obtain ⟨hfd1, rfl⟩ := fdalloc_eq_some hq₁
  exact ⟨fd0, fd1, hfd0, hfd1, rfl⟩

theorem State.Inv.pipeEnd {rf wf : Fin nfile} {page : Option Nat} {copyout : Bool} (h : s.Inv)
    (hp : (s.proc p).life = .alive) (hclosing : (s.proc p).closing = [])
    (htask : (s.proc p).task = .pipe2 rf wf) (hu : pipeEnd s p rf wf page copyout = some u) :
    u.Inv := by
  have hown : s.owns p = ⟨entries (s.proc p).ofile, rf ::ₘ {wf}, rf ::ₘ {wf}, 0⟩ := by
    simp [State.owns, Proc.own, hclosing, htask, Task.fresh]
  unfold Files.pipeEnd at hu
  split at hu
  · obtain rfl := Option.some.inj hu
    refine h.put hp (h.table.forget ?_ ?_ ?_ ?_) (.of_plain hp (Or.inl rfl))
    all_goals simp [hown, Proc.own, Closing.held, Closing.late, Task.fresh]
  · next pi =>
    split at hu
    · cases hu
    · next hpi =>
      have hpi : s.table.pipe pi = none := by simpa using hpi
      -- the two files are closed again
      have hfail : (s.put (s.table.newPipe rf wf pi) p { s.proc p with
          closing := [.fileclose rf, .fileclose wf], task := .none, result := [-1] }).Inv := by
        refine h.put hp (h.table.newPipe hpi ?_ ?_ ?_ ?_ ?_) (.of_plain hp (Or.inl rfl))
        · simp [hown, Proc.own, Task.fresh]
        · simp [hown, Own.held, Proc.own, Closing.held, Task.fresh]
        · simp [Proc.own, Task.fresh]
        · exact fun g hg => Or.inl (by rw [hown]; exact hg)
        · simp [hown, Proc.own, Closing.late]
      split at hu
      · obtain rfl := Option.some.inj hu
        exact hfail
      · next q hq =>
        obtain rfl := Option.some.inj hu
        cases copyout with
        | false => exact hfail
        | true =>
          obtain ⟨fd0, fd1, hfd0, hfd1, rfl⟩ := pipeInstall_eq_some hq
          have hentries := (entries_update hfd1 wf).trans (congrArg _ (entries_update hfd0 rf))
          refine h.put hp (h.table.newPipe hpi ?_ ?_ ?_ ?_ ?_) (.of_plain hp (Or.inl rfl))
          · simp [hown, Proc.own, Task.fresh]
          · simp only [hown, Own.held, Proc.own, hentries, if_pos, hclosing, Task.fresh,
              List.map_nil, List.sum_nil, add_zero]
            rw [Multiset.cons_swap, Multiset.add_cons, Multiset.add_comm _ {wf},
              Multiset.singleton_add]
          · simp [Proc.own, Task.fresh]
          · intro g hg
            simp only [Proc.own, if_pos, hentries, Multiset.mem_cons] at hg
            rw [hown]
            grind
          · simp [hown, Proc.own, hclosing]

theorem State.Inv.exitStep {fd : Nat} (h : s.Inv) (hp : (s.proc p).life = .alive)
    (hclosing : (s.proc p).closing = []) (htask : (s.proc p).task = .exitClose fd)
    (hu : exitStep s p fd = some u) : u.Inv := by
  have hdone := h.exiting p fd htask
  unfold Files.exitStep at hu
  split at hu
  · next hfd =>
    split at hu
    · next hnone =>
      obtain rfl := Option.some.inj hu
      refine h.put_same hp (by simp [Proc.own, htask, Task.fresh]) ⟨Or.inl hp, by simp, ?_⟩
      intro k hk j hj
      obtain rfl : fd + 1 = k := by simpa using hk
      obtain hlt | rfl := Nat.lt_succ_iff_lt_or_eq.mp hj
      · exact hdone j hlt
      · exact hnone
    · next f hf =>
      obtain ⟨⟨t, ff⟩, ht, rfl⟩ := Option.map_eq_some_iff.mp hu
      refine h.put hp (h.clear hf ht rfl rfl (by simp [htask, Proc.closed, Task.fresh]))
        ⟨Or.inl hp, by simp [Proc.closed], ?_⟩
      intro k hk j hj
      obtain rfl : fd + 1 = k := by simpa [Proc.closed] using hk
      obtain hlt | rfl := Nat.lt_succ_iff_lt_or_eq.mp hj
      · have hne : j ≠ ⟨fd, hfd⟩ := fun hj => absurd (congrArg Fin.val hj) hlt.ne
        simpa [Proc.closed, hne] using hdone j hlt
      · exact Function.update_self ..
  · next hfd =>
    obtain rfl := Option.some.inj hu
    refine h.put_same hp (by simp [Proc.own, htask, Task.fresh])
      ⟨Or.inr ⟨rfl, ⟨hclosing, rfl⟩, ?_⟩, by simp, by simp⟩
    exact fun j => hdone j (by omega)

/-- A parent and the child it sets up. -/
theorem State.Inv.put_child {i : Nat} {c : Proc} (h : s.Inv)
    (hp : (s.proc p).life = .alive) (htask : (s.proc p).task = .forkCopy np i)
    (ht : t.Inv (Function.update s.owns np c.own)) (hq : q.life = .alive)
    (hown : q.own = (s.proc p).own) (hc : c.idle)
    (hcase : (c.life = .used ∧ q.task = .forkCopy np (i + 1) ∧
        ∀ fd : Fin nofile, c.ofile fd = if fd.val < i + 1 then q.ofile fd else none) ∨
      c.life = .alive ∧ q.task = .none) (t' : Table) : ((s.put t' np c).put t p q).Inv := by
  have hused := (h.forking p np i htask).1
  have hone := fun r j hr => h.forkOne r p np j i hr htask
  have hne : p ≠ np := by
    rintro rfl
    simp [hp] at hused
  have hproc : ∀ r, ((s.put t' np c).put t p q).proc r =
      if r = p then q else if r = np then c else s.proc r := by
    grind
  refine ⟨?_, ?_, ?_, ?_, ?_, ?_⟩
  · rw [put_owns, put_owns, hown, Function.update_comm hne.symm,
      show (s.proc p).own = s.owns p from rfl, Function.update_eq_self]
    exact ht
  · intro r hr
    rw [hproc] at hr ⊢
    grind [h.idle]
  · intro r hr
    rw [hproc] at hr ⊢
    grind [h.empty]
  · intro r mp j hr
    rw [hproc] at hr
    rw [hproc, hproc]
    have := h.forking r mp j
    have := hc.2
    grind
  · intro r r' mp j k hr hr'
    rw [hproc] at hr hr'
    have := h.forkOne r r' mp j k
    have := hc.2
    grind
  · intro r fd hr
    rw [hproc] at hr ⊢
    have := h.exiting r fd
    have := hc.2
    grind

theorem State.Inv.forkStep {i : Nat} (h : s.Inv) (hp : (s.proc p).life = .alive)
    (htask : (s.proc p).task = .forkCopy np i) (hu : forkStep s p np i = some u) : u.Inv := by
  obtain ⟨hused, hcopied⟩ := h.forking p np i htask
  have hidle := h.idle np (by simp [hused])
  unfold Files.forkStep at hu
  split at hu
  · next hi =>
    split at hu
    · next hnone =>
      obtain rfl := Option.some.inj hu
      refine h.put_same hp (by simp [Proc.own, htask, Task.fresh]) ⟨Or.inl hp, ?_, by simp⟩
      intro mp j hj
      simp only [Task.forkCopy.injEq] at hj
      obtain ⟨rfl, rfl⟩ := hj
      refine ⟨hused, fun fd => ?_, fun r hr j hj => hr (h.forkOne r p np j i hj htask)⟩
      rw [hcopied fd]
      by_cases hfd : fd.val = i
      · obtain rfl : fd = ⟨i, hi⟩ := Fin.ext hfd
        simp [hnone]
      · grind
    · next f hf =>
      obtain ⟨t, ht, rfl⟩ := Option.map_eq_some_iff.mp hu
      have hfree : (s.proc np).ofile ⟨i, hi⟩ = none := by rw [hcopied, if_neg (Nat.lt_irrefl i)]
      have htype := h.table.typed p f (mem_entries.mpr ⟨_, hf⟩)
      refine h.put_child (q := { s.proc p with task := .forkCopy np (i + 1) })
        (c := { s.proc np with
          ofile := Function.update (s.proc np).ofile ⟨i, hi⟩ (some f) }) hp htask ?_ hp
        (by simp [Proc.own, htask, Task.fresh]) hidle (Or.inl ⟨hused, rfl, fun fd => ?_⟩) t
      · exact h.table.filedup ht htype (entries_update hfree f) rfl rfl rfl
      · by_cases hfd : fd = ⟨i, hi⟩
        · subst hfd
          simp [hf]
        · have hne : fd.val ≠ i := fun h => hfd (Fin.ext h)
          have : fd.val < i + 1 ↔ fd.val < i := by omega
          simp [hfd, hcopied, this]
  · obtain rfl := Option.some.inj hu
    refine h.put_child (q := { s.proc p with task := .none })
      (c := { s.proc np with life := .alive, result := [0] }) hp htask ?_ hp
      (by simp [Proc.own, htask, Task.fresh]) hidle (Or.inr ⟨rfl, rfl⟩) s.table
    rw [show ({ s.proc np with life := .alive, result := [0] } : Proc).own = s.owns np from rfl,
      Function.update_eq_self]
    exact h.table

theorem State.Inv.work {page : Option Nat} {copyout : Bool} (h : s.Inv)
    (hu : work s p page copyout = some u) : u.Inv := by
  have hp : (s.proc p).life = .alive := by
    by_contra hdead
    obtain ⟨hclosing, htask⟩ := h.idle p hdead
    simp [Files.work, hclosing, htask] at hu
  unfold Files.work at hu
  split at hu
  · next f cs hcs =>
    obtain ⟨⟨t, ff⟩, ht, rfl⟩ := Option.map_eq_some_iff.mp hu
    refine h.put hp (h.table.fileclose ht ?_ ?_ ?_ ?_ ?_) (h.fits_of_same hp rfl rfl)
    · cases ff <;> simp [State.owns, Own.held, Proc.own, Proc.closed, hcs, Closing.held]
    · exact le_rfl
    · exact Multiset.le_add_left _ _
    · exact le_rfl
    · cases ff <;> simp [State.owns, Proc.own, Proc.closed, hcs, Closing.late]
  · next ff cs hcs =>
    obtain ⟨t, ht, rfl⟩ := Option.map_eq_some_iff.mp hu
    obtain ⟨t', ht', hinv⟩ := h.table.release (p := p) ff
      (w := ({ s.proc p with closing := cs } : Proc).own) rfl
      (by simp [State.owns, Proc.own, hcs, Closing.held]) rfl
      (by simp [State.owns, Proc.own, hcs, Closing.late])
    obtain rfl : t = t' := Option.some.inj (ht.symm.trans ht')
    exact h.put hp hinv (h.fits_of_same hp rfl rfl)
  · next hclosing =>
    split at hu
    · cases hu
    · next rf htask =>
      split at hu
      · obtain rfl := Option.some.inj hu
        refine h.put hp (h.table.forget rfl ?_ ?_ ?_) (.of_plain hp (Or.inl rfl))
        all_goals
          simp [State.owns, Proc.own, hclosing, htask, Closing.held, Closing.late, Task.fresh]
      · next t wf ht =>
        obtain rfl := Option.some.inj hu
        refine h.put hp (h.table.filealloc ht rfl ?_ ?_ ?_ rfl)
          (.of_plain hp (Or.inr (by simp [Task.fresh])))
        · simp [State.owns, Proc.own, hclosing, htask, Task.fresh, ← Multiset.singleton_add,
            add_comm]
        · simp [State.owns, Proc.own, hclosing, htask, Task.fresh, ← Multiset.singleton_add,
            add_comm]
        · simp [Proc.own, Task.fresh]
    · next rf wf htask => exact h.pipeEnd hp hclosing htask hu
    · next np i htask => exact h.forkStep hp htask hu
    · next fd htask => exact h.exitStep hp hclosing htask hu

/-- A new child has nothing. -/
theorem State.Inv.fork {pid : Nat} (h : s.Inv) (hp : (s.proc p).life = .alive)
    (hidle : (s.proc p).idle) (hnp : (s.proc np).life = .unused) :
    ((s.put s.table np { s.proc np with life := .used }).put s.table p
      { s.proc p with task := .forkCopy np 0, result := [pid] }).Inv := by
  have hne : p ≠ np := by
    rintro rfl
    simp [hp] at hnp
  have hchild : (s.put s.table np { s.proc np with life := .used }).Inv := by
    refine ⟨?_, ?_, ?_, ?_, ?_, ?_⟩
    · rw [put_owns, show ({ s.proc np with life := .used } : Proc).own = s.owns np from rfl,
        Function.update_eq_self]
      exact h.table
    · have := h.idle np
      grind [h.idle, Proc.idle]
    · grind [h.empty]
    · intro r mp i hr
      have := h.forking r mp i
      grind
    · intro r r' mp i j hr hr'
      have := h.forkOne r r' mp i j
      grind
    · intro r fd hr
      have := h.exiting r fd
      grind
  refine hchild.put_same (by grind) ?_ ⟨Or.inl hp, fun mp i hi => ?_, by simp⟩
  · rw [put_proc, if_neg hne]
    simp [Proc.own, hidle.2, Task.fresh]
  · simp only [Task.forkCopy.injEq] at hi
    obtain ⟨rfl, rfl⟩ := hi
    refine ⟨by rw [put_proc, if_pos rfl], fun fd => ?_, fun r hr j hj => ?_⟩
    · have := h.empty np (Or.inl hnp) fd
      grind
    · have := h.forking r np j
      grind

theorem State.Inv.call {c : Call} (h : s.Inv) (hp : (s.proc p).life = .alive)
    (hidle : (s.proc p).idle) (hu : call s p c = some u) : u.Inv := by
  cases c with
  | «open» device ip omode => exact h.sysOpen hp hidle hu
  | dup fd => exact h.sysDup hp hidle hu
  | close fd => exact h.sysClose hp hidle hu
  | pipe => exact h.sysPipe hp hidle hu
  | fork np pid =>
    simp only [Files.call, Option.ite_none_right_eq_some, Option.some.injEq] at hu
    obtain ⟨hnp, rfl⟩ := hu
    exact h.fork hp hidle hnp
  | exit =>
    simp only [Files.call, Option.ite_none_left_eq_some, Option.some.injEq] at hu
    obtain ⟨-, rfl⟩ := hu
    exact h.put_same hp (by simp [Proc.own, hidle.2, Task.fresh]) ⟨Or.inl hp, by simp, by simp⟩

theorem State.Inv.step {l : Label} (h : s.Inv) (hu : step s l = some u) : u.Inv := by
  cases l with
  | call p c =>
    simp only [Files.step, Option.ite_none_right_eq_some] at hu
    exact h.call hu.1.1 hu.1.2 hu.2
  | work p page copyout => exact h.work hu
  | reap p =>
    simp only [Files.step, Option.ite_none_right_eq_some, Option.some.injEq] at hu
    obtain ⟨hzombie, rfl⟩ := hu
    refine ⟨?_, ?_, ?_, ?_, ?_, ?_⟩
    · rw [put_owns, show ({ s.proc p with life := .unused } : Proc).own = s.owns p from rfl,
        Function.update_eq_self]
      exact h.table
    · have := h.idle p
      grind [h.idle, Proc.idle]
    · intro r hr fd
      by_cases hrp : r = p
      · subst hrp
        simpa [put_proc] using h.empty r (Or.inr hzombie) fd
      · simp only [put_proc, if_neg hrp] at hr ⊢
        exact h.empty r hr fd
    · intro r mp i hr
      have := h.forking r mp i
      grind
    · intro r r' mp i j hr hr'
      have := h.forkOne r r' mp i j
      grind
    · intro r fd hr
      have := h.exiting r fd
      grind

theorem inv_boot : boot.Inv := by
  have hown : ∀ p, boot.owns p = ⟨0, 0, 0, 0⟩ := fun p => by
    simp [State.owns, Proc.own, boot, Task.fresh, entries_eq_zero_iff]
  refine ⟨⟨?_, ?_, ?_, ?_, ?_, ?_, ?_, ?_⟩, ?_, ?_, ?_, ?_, ?_⟩
  · intro f
    simp only [hown, Own.held]
    simp [boot, Table.init]
  · intro e
    simp only [Table.endHolders, hown]
    simp [boot, Table.init, Table.isOpen, File.ends]
  · simp [boot, Table.init]
  · simp [hown]
  · simp [hown]
  · simp [hown]
  all_goals simp [boot, Table.init, Proc.idle]

theorem inv_of_exec {ls : List Label} (hs : exec step boot ls = some s) : s.Inv :=
  exec_invariant (I := State.Inv) (fun _ _ _ h hu => h.step hu) inv_boot hs

end

/-! ## Results -/

/-- `sampleRun` opens the console, makes a pipe, forks, and the parent closes the write end. -/
def sampleRun : List Label :=
  [.call 0 (.open true 1 2), .call 0 .pipe, .work 0 none true, .work 0 (some 7) true,
    .call 0 (.fork 1 2)] ++ List.replicate 17 (.work 0 none true) ++ [.call 0 (.close 2)]

section
variable {s t : State} {ls : List Label}

/-- A file is referred to by the descriptors of all processes and by the calls they are in. -/
theorem ref_eq (hs : exec step boot ls = some s) (f : Fin nfile) :
    (s.table.file f).ref = ∑ p, ((Finset.univ.filter fun fd => (s.proc p).ofile fd = some f).card +
      (s.proc p).own.rest.count f) := by
  have h := (inv_of_exec hs).table.refs f
  simp only at h
  rw [h]
  refine Finset.sum_congr rfl fun p _ => ?_
  rw [Own.held, Multiset.count_add, ← count_entries]
  rfl

theorem ref_eq_sampleRun : ∃ s, exec step boot sampleRun = some s ∧ (s.table.file 2).ref = 1 ∧
    ∑ p, ((Finset.univ.filter fun fd => (s.proc p).ofile fd = some 2).card +
      (s.proc p).own.rest.count 2) = 1 := by
  have hend : (exec step boot sampleRun).map (fun s => (s.table.file 2).ref) = some 1 := by
    decide +kernel
  obtain ⟨s, hs, href⟩ := Option.map_eq_some_iff.mp hend
  exact ⟨s, hs, href, (ref_eq hs 2).symm.trans href⟩

/-! ### Calls end -/

def Closing.steps : Closing → Nat
  | .fileclose _ => 2
  | .release _ => 1

def Task.steps : Task → Nat
  | .none => 0
  | .pipe1 _ => 6
  | .pipe2 _ _ => 5
  | .forkCopy _ i => nofile - i + 1
  | .exitClose fd => 2 * (nofile - fd) + 1

/-- No more than these steps are left of a call. -/
def Proc.steps (q : Proc) : Nat := (q.closing.map Closing.steps).sum + q.task.steps

theorem steps_closed (q : Proc) (ff : Option File) : (q.closed ff).steps ≤ q.steps + 1 := by
  cases ff <;> simp [Proc.steps, Proc.closed, Closing.steps]
  omega

theorem filedup_isSome {f : Fin nfile} {p : Fin nproc} (h : s.Inv) (hf : f ∈ (s.owns p).held) :
    (filedup s.table f).isSome := by
  have := h.table.ref_pos hf
  simp only [filedup]
  split
  · omega
  · rfl

theorem mem_held_of_ofile {p : Fin nproc} {fd : Fin nofile} {f : Fin nfile}
    (hf : (s.proc p).ofile fd = some f) : f ∈ (s.owns p).held :=
  Multiset.mem_add.mpr (Or.inl (mem_entries.mpr ⟨fd, hf⟩))

/-- A process in a call can go on, and gets nearer to the end of the call. -/
theorem work_spec {p : Fin nproc} (page : Option Nat) (copyout : Bool) (h : s.Inv)
    (hbusy : ¬(s.proc p).idle) (hpage : ∀ pi ∈ page, s.table.pipe pi = none) :
    ∃ t, work s p page copyout = some t ∧ (t.proc p).steps < (s.proc p).steps := by
  cases hclosing : (s.proc p).closing with
  | cons c cs =>
    cases c with
    | fileclose f =>
      have hf : f ∈ (s.owns p).held := by
        simp [State.owns, Own.held, Proc.own, hclosing, Closing.held]
      obtain ⟨⟨t, ff⟩, ht⟩ := Option.isSome_iff_exists.mp (fileclose_isSome h.table hf)
      refine ⟨_, by simp only [work, hclosing, ht]; rfl, ?_⟩
      have := steps_closed { s.proc p with closing := cs } ff
      simp only [put_proc, if_pos, Proc.steps, hclosing, List.map_cons, List.sum_cons,
        Closing.steps] at this ⊢
      omega
    | release ff =>
      obtain ⟨t, ht, -⟩ := h.table.release (p := p) ff
        (w := ({ s.proc p with closing := cs } : Proc).own) rfl
        (by simp [State.owns, Proc.own, hclosing, Closing.held]) rfl
        (by simp [State.owns, Proc.own, hclosing, Closing.late])
      refine ⟨_, by simp only [work, hclosing, ht]; rfl, ?_⟩
      simp [put_proc, Proc.steps, hclosing, Closing.steps]
  | nil =>
    cases htask : (s.proc p).task with
    | none => exact absurd ⟨hclosing, htask⟩ hbusy
    | pipe1 rf =>
      cases ht : filealloc s.table with
      | none =>
        refine ⟨_, by simp only [work, hclosing, htask, ht]; rfl, ?_⟩
        simp [put_proc, Proc.steps, hclosing, htask, Closing.steps, Task.steps]
      | some x =>
        refine ⟨_, by simp only [work, hclosing, htask, ht]; rfl, ?_⟩
        simp [put_proc, Proc.steps, hclosing, htask, Task.steps]
    | pipe2 rf wf =>
      cases page with
      | none =>
        refine ⟨_, by simp only [work, hclosing, htask, pipeEnd]; rfl, ?_⟩
        simp [put_proc, Proc.steps, hclosing, htask, Closing.steps, Task.steps]
      | some pi =>
        have hpi : (s.table.pipe pi).isSome = false := by simp [hpage pi rfl]
        cases hq : pipeInstall (s.proc p) rf wf with
        | none =>
          refine ⟨_, by simp only [work, hclosing, htask, pipeEnd, hpi, hq]; rfl, ?_⟩
          simp [put_proc, Proc.steps, hclosing, htask, Closing.steps, Task.steps]
        | some q =>
          obtain ⟨fd0, fd1, -, -, rfl⟩ := pipeInstall_eq_some hq
          refine ⟨_, by simp only [work, hclosing, htask, pipeEnd, hpi, hq]; rfl, ?_⟩
          cases copyout <;>
            simp [put_proc, Proc.steps, hclosing, htask, Closing.steps, Task.steps]
    | forkCopy np i =>
      have hi : i < nofile → nofile - (i + 1) + 1 < nofile - i + 1 := by omega
      by_cases hlt : i < nofile
      · cases hf : (s.proc p).ofile ⟨i, hlt⟩ with
        | none =>
          refine ⟨_, by simp only [work, hclosing, htask, forkStep, hlt, hf, dite_true]; rfl, ?_⟩
          simpa [put_proc, Proc.steps, hclosing, htask, Task.steps] using hi hlt
        | some f =>
          obtain ⟨t, ht⟩ := Option.isSome_iff_exists.mp (filedup_isSome h (mem_held_of_ofile hf))
          refine ⟨_, by simp only [work, hclosing, htask, forkStep, hlt, hf, ht, dite_true]; rfl,
            ?_⟩
          simpa [put_proc, Proc.steps, hclosing, htask, Task.steps] using hi hlt
      · refine ⟨_, by simp only [work, hclosing, htask, forkStep, hlt, dite_false]; rfl, ?_⟩
        simp [put_proc, Proc.steps, hclosing, htask, Task.steps]
    | exitClose fd =>
      by_cases hlt : fd < nofile
      · cases hf : (s.proc p).ofile ⟨fd, hlt⟩ with
        | none =>
          refine ⟨_, by simp only [work, hclosing, htask, exitStep, hlt, hf, dite_true]; rfl, ?_⟩
          simp [put_proc, Proc.steps, hclosing, htask, Task.steps]
          omega
        | some f =>
          obtain ⟨⟨t, ff⟩, ht⟩ :=
            Option.isSome_iff_exists.mp (fileclose_isSome h.table (mem_held_of_ofile hf))
          refine ⟨_, by simp only [work, hclosing, htask, exitStep, hlt, hf, ht, dite_true]; rfl,
            ?_⟩
          cases ff <;>
            simp [put_proc, Proc.closed, Proc.steps, hclosing, htask, Closing.steps, Task.steps] <;>
            omega
      · refine ⟨_, by simp only [work, hclosing, htask, exitStep, hlt, dite_false]; rfl, ?_⟩
        simp [put_proc, Proc.steps, hclosing, htask, Task.steps]

/-- No call panics on a free file, closes an end of a pipe that has been freed, or is stuck
otherwise. -/
theorem call_isSome (hs : exec step boot ls = some s) (p : Fin nproc) :
    ((s.proc p).life = .alive → (s.proc p).idle →
      ∀ fd, (step s (.call p (.dup fd))).isSome ∧ (step s (.call p (.close fd))).isSome) ∧
    (¬(s.proc p).idle → ∀ page copyout, (∀ pi ∈ page, s.table.pipe pi = none) →
      (step s (.work p page copyout)).isSome) := by
  have h := inv_of_exec hs
  refine ⟨fun hp hidle fd => ?_, fun hbusy page copyout hpage => ?_⟩
  · simp only [step, hp, hidle, and_self, if_true, call, sysDup, sysClose]
    cases hf : argfd (s.proc p) fd with
    | none => simp
    | some x =>
      obtain ⟨i, f⟩ := x
      have hmem := mem_held_of_ofile (argfd_eq_some hf).1
      obtain ⟨t, ht⟩ := Option.isSome_iff_exists.mp (filedup_isSome h hmem)
      obtain ⟨⟨t', ff⟩, ht'⟩ := Option.isSome_iff_exists.mp (fileclose_isSome h.table hmem)
      cases hq : fdalloc (s.proc p) f <;> simp [hq, ht, ht']
  · obtain ⟨t, ht, -⟩ := work_spec page copyout h hbusy hpage
    simp [step, ht]

theorem call_isSome_sampleRun : ∃ s, exec step boot sampleRun = some s ∧
    (step s (.call 1 (.close 2))).isSome := by
  have hend : (exec step boot sampleRun).map
      (fun s => decide ((s.proc 1).life = .alive ∧ (s.proc 1).idle)) = some true := by
    decide +kernel
  obtain ⟨s, hs, hidle⟩ := Option.map_eq_some_iff.mp hend
  obtain ⟨hlive, hidle⟩ := of_decide_eq_true hidle
  exact ⟨s, hs, (((call_isSome hs 1).1 hlive hidle) 2).2⟩

/-- A process that goes on with its call comes to the end of it, whichever free page it gets and
whether or not `copyout` succeeds. -/
theorem call_completes (hs : exec step boot ls = some s) (p : Fin nproc)
    (page : State → Option Nat) (copyout : State → Bool)
    (hpage : ∀ t, ∀ pi ∈ page t, t.table.pipe pi = none) :
    ∃ t, Reaches step (fun u l _ => l = .work p (page u) (copyout u)) s t ∧ (t.proc p).idle := by
  have h := inv_of_exec hs
  clear hs
  induction hn : (s.proc p).steps using Nat.strong_induction_on generalizing s with
  | _ n ih =>
    by_cases hidle : (s.proc p).idle
    · exact ⟨s, .refl s, hidle⟩
    · obtain ⟨u, hu, hlt⟩ := work_spec (page s) (copyout s) h hidle (hpage s)
      have hstep : step s (.work p (page s) (copyout s)) = some u := hu
      obtain ⟨t, hreach, ht⟩ := ih _ (hn ▸ hlt) (h.step hstep) rfl
      exact ⟨t, .head hstep rfl hreach, ht⟩

/-- The first page, while no pipe is on it. -/
def firstPage (s : State) : Option Nat := if s.table.pipe 0 = none then some 0 else none

theorem call_completes_sampleRun : ∃ s t, exec step boot (sampleRun.take 2) = some s ∧
    ¬(s.proc 0).idle ∧ Reaches step (fun u l _ => l = .work 0 (firstPage u) true) s t ∧
    (t.proc 0).idle := by
  have hend : (exec step boot (sampleRun.take 2)).map
      (fun s => decide (¬(s.proc 0).idle)) = some true := by
    decide +kernel
  obtain ⟨s, hs, hbusy⟩ := Option.map_eq_some_iff.mp hend
  obtain ⟨t, ht⟩ := call_completes hs 0 firstPage (fun _ => true) (by simp [firstPage])
  exact ⟨s, t, hs, of_decide_eq_true hbusy, ht⟩

/-! ### What descriptors stand for -/

theorem toNat_pos_iff (b : Bool) : 0 < b.toNat ↔ b = true := by
  cases b <;> simp

/-- The file of a descriptor is in use and has a type, and if it is an end of a pipe then the pipe
is there and the end is open. -/
theorem descriptor_open (hs : exec step boot ls = some s) {p : Fin nproc} {fd : Fin nofile}
    {f : Fin nfile} (hf : (s.proc p).ofile fd = some f) :
    0 < (s.table.file f).ref ∧ (s.table.file f).type ≠ .none ∧ ((s.table.file f).type = .pipe →
      ∃ e, s.table.pipe (s.table.file f).pipe = some e ∧ e.isOpen (s.table.file f).writable) := by
  have h := (inv_of_exec hs).table
  refine ⟨h.ref_pos (mem_held_of_ofile hf), h.typed p f (mem_entries.mpr ⟨fd, hf⟩), fun htype => ?_⟩
  have hpos := h.ends.pos (i := .inl f) (a := ((s.table.file f).pipe, (s.table.file f).writable))
    (by simp [Table.endHolders, File.ends, htype])
  cases he : s.table.pipe (s.table.file f).pipe with
  | none => simp [Table.isOpen, he] at hpos
  | some e => exact ⟨e, rfl, by simpa [Table.isOpen, he, toNat_pos_iff] using hpos⟩

theorem descriptor_open_sampleRun : ∃ s, exec step boot sampleRun = some s ∧
    (s.proc 1).ofile 2 = some 2 ∧ 0 < (s.table.file 2).ref := by
  have hend : (exec step boot sampleRun).map (fun s => (s.proc 1).ofile 2) = some (some 2) := by
    decide +kernel
  obtain ⟨s, hs, hf⟩ := Option.map_eq_some_iff.mp hend
  exact ⟨s, hs, hf, (descriptor_open hs hf).1⟩

/-- An open end has someone who has a file for it or is about to close it. -/
theorem State.Inv.isOpen_iff_held (h : s.Inv) (a : Nat × Bool) : s.table.isOpen a = true ↔
    ∃ p, (∃ f ∈ (s.proc p).own.held, (s.table.file f).type = .pipe ∧
      (s.table.file f).pipe = a.1 ∧ (s.table.file f).writable = a.2) ∨ a ∈ (s.proc p).own.late := by
  have h := h.table
  have hiff := h.ends.pos_iff (a := a)
  simp only [toNat_pos_iff] at hiff
  rw [hiff]
  constructor
  · rintro ⟨x, hx⟩
    cases x with
    | inl f =>
      simp only [Table.endHolders, Sum.elim_inl, File.ends] at hx
      split at hx
      · next htype =>
        have href : 0 < (s.table.file f).ref := by
          by_contra hzero
          simp [h.free f (by omega)] at htype
        obtain ⟨p, hp⟩ := h.refs.pos_iff.mp href
        obtain rfl := Multiset.mem_singleton.mp hx
        exact ⟨p, Or.inl ⟨f, hp, htype, rfl, rfl⟩⟩
      · simp at hx
    | inr p => exact ⟨p, Or.inr hx⟩
  · rintro ⟨p, ⟨f, -, htype, hpipe, hwritable⟩ | hlate⟩
    · exact ⟨.inl f, by simp [Table.endHolders, File.ends, htype, hpipe, hwritable]⟩
    · exact ⟨.inr p, hlate⟩

/-- An end of a pipe is open if a process has a descriptor for it, is making one, or is about to
close it; and a pipe with no such process is freed. -/
theorem isOpen_iff (hs : exec step boot ls = some s) (pi : Nat) :
    (∀ e writable, s.table.pipe pi = some e → (e.isOpen writable ↔
      ∃ p, (∃ f ∈ (s.proc p).own.held, (s.table.file f).type = .pipe ∧
        (s.table.file f).pipe = pi ∧ (s.table.file f).writable = writable) ∨
        (pi, writable) ∈ (s.proc p).own.late)) ∧
    ((s.table.pipe pi).isSome ↔ ∃ writable, s.table.isOpen (pi, writable)) := by
  have h := inv_of_exec hs
  refine ⟨fun e writable he => ?_, ?_⟩
  · have hiff := h.isOpen_iff_held (pi, writable)
    simpa only [Table.isOpen, he, Option.elim_some] using hiff
  · cases he : s.table.pipe pi with
    | none => simp [Table.isOpen, he]
    | some e =>
      have := h.table.pipes pi e he
      simp only [Option.isSome_some, Table.isOpen, he, Option.elim_some, true_iff]
      obtain hread | hwrite := this
      · exact ⟨false, hread⟩
      · exact ⟨true, hwrite⟩

theorem isOpen_iff_sampleRun : ∃ s e, exec step boot sampleRun = some s ∧
    s.table.pipe 7 = some e ∧ e.isOpen true = true := by
  have hend : (exec step boot sampleRun).map (fun s => (s.table.pipe 7,
      (s.proc 1).ofile 2, (s.table.file 2).type, (s.table.file 2).pipe,
      (s.table.file 2).writable)) =
      some (some ⟨true, true⟩, some 2, .pipe, 7, true) := by
    decide +kernel
  obtain ⟨s, hs, hend⟩ := Option.map_eq_some_iff.mp hend
  simp only [Prod.mk.injEq] at hend
  obtain ⟨hpipe, hf, hfile⟩ := hend
  exact ⟨s, _, hs, hpipe, ((isOpen_iff hs 7).1 _ true hpipe).mpr
    ⟨1, Or.inl ⟨2, mem_held_of_ofile (s := s) (p := 1) hf, hfile⟩⟩⟩

/-- A child starts with the descriptors that its parent has, whatever the slot was used for
before. -/
theorem fork_ofile {p np : Fin nproc} {i : Nat} {page : Option Nat} {copyout : Bool}
    (hs : exec step boot ls = some s) (htask : (s.proc p).task = .forkCopy np i)
    (ht : step s (.work p page copyout) = some t) (hdone : (t.proc np).life = .alive) :
    (t.proc np).ofile = (t.proc p).ofile ∧ (t.proc p).idle := by
  have h := inv_of_exec hs
  obtain ⟨hused, hcopied⟩ := h.forking p np i htask
  have hlive : (s.proc p).life = .alive := by
    by_contra hdead
    simp [(h.idle p hdead).2] at htask
  have hne : p ≠ np := by
    rintro rfl
    simp [hlive] at hused
  simp only [step, work, htask] at ht
  split at ht
  · obtain ⟨x, -, rfl⟩ := Option.map_eq_some_iff.mp ht
    simp [put_proc, hne.symm, hused] at hdone
  · obtain ⟨x, -, rfl⟩ := Option.map_eq_some_iff.mp ht
    simp [put_proc, hne.symm, hused] at hdone
  · next hclosing =>
    unfold forkStep at ht
    split at ht
    · split at ht
      · obtain rfl := Option.some.inj ht
        simp [put_proc, hne.symm, hused] at hdone
      · obtain ⟨x, -, rfl⟩ := Option.map_eq_some_iff.mp ht
        simp [put_proc, hne.symm, hused] at hdone
    · next hi =>
      obtain rfl := Option.some.inj ht
      refine ⟨funext fun fd => ?_, by simp [put_proc, Proc.idle, hclosing]⟩
      have hfd : fd.val < i := by omega
      simp [put_proc, hne.symm, hcopied, hfd]

theorem fork_ofile_sampleRun : ∃ s t, exec step boot (sampleRun.take 21) = some s ∧
    step s (.work 0 none true) = some t ∧ (t.proc 1).ofile = (t.proc 0).ofile := by
  have hend : (exec step boot (sampleRun.take 21)).bind (fun s => (step s (.work 0 none true)).map
      fun t => ((s.proc 0).task, (t.proc 1).life)) = some (.forkCopy 1 16, .alive) := by
    decide +kernel
  obtain ⟨s, hs, hend⟩ := Option.bind_eq_some_iff.mp hend
  obtain ⟨t, ht, hend⟩ := Option.map_eq_some_iff.mp hend
  simp only [Prod.mk.injEq] at hend
  exact ⟨s, t, hs, ht, (fork_ofile hs hend.1 ht hend.2).1⟩

end

end LiberalOS.Kernel.Files
