import LiberalOS.Kernel.Scheduler

/-!
# Ownership of the proxy lock

The process table under `fork`, `wait`, `kill`, `exit`, console reads and the two system calls on
`proxy_lock`, as interleaved steps. One step is one critical section of the source: a pass through
the loop of `acquiresleep`, the test of `holdingsleep`, a byte of `consoleread`, a whole `kfork`
(until its child is RUNNABLE only `kkill` can reach it, with the same effect as afterwards). The
test of `killed` in `consoleread` and `kwait` is one step with the `sleep` behind it, although
`kkill` needs neither of their locks. A step of a process needs it to be RUNNING; preemption and
dispatch are steps of their own.

`kexit` closes files and leaves the directory, but does not look at the lock. The lock is therefore
held by a live process in exactly those runs in which no process turns ZOMBIE while it holds it.

## Main results

* `holderAlive_iff_noHolderExit` — that condition is exact, for every interleaving.
-/
namespace LiberalOS.Kernel
open Foundation

/-- What a process can sleep on. -/
inductive Chan where
  | proxyLock | console | wait (p : Fin nproc)
  deriving DecidableEq

/-- Where a process is: in user space, or in front of a critical section of the kernel. -/
inductive Pc where
  | user
  | acquiring
  | checking
  | releasing
  | reading (n target : Nat)
  | forking
  | waiting
  | killing (pid : Nat)
  | exiting
  | ret
  deriving DecidableEq

structure LockProc where
  state : ProcState
  pid : Nat
  killed : Bool
  chan : Option Chan
  parent : Option (Fin nproc)
  pc : Pc
  deriving DecidableEq

structure SleepLock where
  locked : Bool
  pid : Nat
  deriving DecidableEq

structure LockSys where
  proc : Fin nproc → LockProc
  nextpid : Nat
  lock : SleepLock
  input : List UInt8

def initproc : Fin nproc := 0

/-- The slot `freeproc` leaves behind. -/
def LockProc.free : LockProc := ⟨.unused, 0, false, none, none, .user⟩

/-- Only `init` exists and the lock is free. -/
def LockSys.boot : LockSys where
  proc i := if i = initproc then ⟨.runnable, 1, false, none, none, .user⟩ else .free
  nextpid := 2
  lock := ⟨false, 0⟩
  input := []

/-! ## Kernel operations -/

def LockSys.put (s : LockSys) (i : Fin nproc) (p : LockProc) : LockSys :=
  { s with proc := Function.update s.proc i p }

def LockProc.goto (p : LockProc) (pc : Pc) : LockProc := { p with pc := pc }

def LockProc.sleep (p : LockProc) (chan : Chan) : LockProc :=
  { p with state := .sleeping, chan := some chan }

def LockProc.wake (chan : Chan) (p : LockProc) : LockProc :=
  if p.state = .sleeping ∧ p.chan = some chan then { p with state := .runnable } else p

def wakeup (chan : Chan) (s : LockSys) : LockSys :=
  { s with proc := fun j => (s.proc j).wake chan }

/-- `kkill` on the slot it finds. -/
def LockProc.kill (p : LockProc) : LockProc :=
  { p with killed := true, state := if p.state = .sleeping then .runnable else p.state }

/-- Kill the first process with the given pid. -/
def kkill (s : LockSys) (pid : Nat) : LockSys :=
  match (List.finRange nproc).find? fun j => (s.proc j).pid = pid with
  | some j => s.put j (s.proc j).kill
  | none => s

/-- One pass of the loop of `acquiresleep`. -/
def acquiresleep (s : LockSys) (i : Fin nproc) (p : LockProc) : LockSys :=
  if s.lock.locked then s.put i (p.sleep .proxyLock)
  else { s.put i (p.goto .ret) with lock := ⟨true, p.pid⟩ }

def holdingsleep (s : LockSys) (i : Fin nproc) : Bool :=
  s.lock.locked && s.lock.pid == (s.proc i).pid

def releasesleep (s : LockSys) (i : Fin nproc) (p : LockProc) : LockSys :=
  wakeup .proxyLock { s.put i (p.goto .ret) with lock := ⟨false, 0⟩ }

/-- One pass of the loop of `consoleread`, up to the next byte; `ok` says whether the byte can be
copied out. -/
def consoleread (s : LockSys) (i : Fin nproc) (p : LockProc) (n target : Nat) (ok : Bool) :
    LockSys :=
  if n = 0 then s.put i (p.goto .ret)
  else
    match s.input with
    | [] => if p.killed then s.put i (p.goto .ret) else s.put i (p.sleep .console)
    | c :: rest =>
      -- ^D ends the read, and stays for the next one when bytes were read before it
      if c = 4 then { s.put i (p.goto .ret) with input := if n < target then c :: rest else rest }
      else if ok = false ∨ c = 10 then { s.put i (p.goto .ret) with input := rest }
      else { s.put i (p.goto (.reading (n - 1) target)) with input := rest }

/-- `kfork` of the process in slot `i`; `ok` says whether its allocations succeed. -/
def kfork (s : LockSys) (i : Fin nproc) (p : LockProc) (ok : Bool) : LockSys :=
  let s' := s.put i (p.goto .ret)
  match (List.finRange nproc).find? fun j => (s.proc j).state = .unused with
  | none => s'
  | some c =>
    if ok then
      { s'.put c ⟨.runnable, s.nextpid, (s.proc c).killed, (s.proc c).chan, some i, .user⟩ with
        nextpid := s.nextpid + 1 }
    else { s'.put c .free with nextpid := s.nextpid + 1 }

/-- One pass of the loop of `kwait`; `ok` says whether the status can be copied out. -/
def kwait (s : LockSys) (i : Fin nproc) (p : LockProc) (ok : Bool) : LockSys :=
  match (List.finRange nproc).find? fun j =>
    (s.proc j).parent = some i ∧ (s.proc j).state = .zombie with
  | some c => if ok then (s.put i (p.goto .ret)).put c .free else s.put i (p.goto .ret)
  | none =>
    if p.killed = true ∨ ∀ j, (s.proc j).parent ≠ some i then s.put i (p.goto .ret)
    else s.put i (p.sleep (.wait i))

/-- A child of `i` becomes a child of `init`. -/
def LockProc.adopt (i : Fin nproc) (p : LockProc) : LockProc :=
  if p.parent = some i then { p with parent := some initproc } else p

/-- Pass the children of `i` to `init`, waking it if there are any. -/
def reparent (s : LockSys) (i : Fin nproc) : LockSys :=
  if (∃ j, (s.proc j).parent = some i) then
    wakeup (.wait initproc) { s with proc := fun j => (s.proc j).adopt i }
  else s

/-- `wakeup(p->parent)`. -/
def wakeParent (s : LockSys) (p : LockProc) : LockSys :=
  match p.parent with
  | some q => wakeup (.wait q) s
  | none => s

/-- The end of `kexit`: the process becomes a ZOMBIE. -/
def kexit (s : LockSys) (i : Fin nproc) (p : LockProc) : LockSys :=
  let s := wakeParent (reparent s i) p
  s.put i { s.proc i with state := .zombie }

/-! ## Steps -/

inductive Syscall where
  | proxylock | proxyunlock | read (n : Nat) | fork | wait | kill (pid : Nat) | exit | other

def Syscall.entry : Syscall → Pc
  | .proxylock => .acquiring
  | .proxyunlock => .checking
  | .read n => .reading n n
  | .fork => .forking
  | .wait => .waiting
  | .kill pid => .killing pid
  | .exit => .exiting
  | .other => .ret

/-- Why a process in user space enters the kernel. -/
inductive Trap where
  | syscall (sc : Syscall)
  | interrupt
  | fault

inductive LockLabel where
  | dispatch (i : Fin nproc)
  | yield (i : Fin nproc)
  | trap (i : Fin nproc) (t : Trap)
  | kernel (i : Fin nproc) (ok : Bool)
  | input (line : List UInt8)

/-- `usertrap` on entry: a killed process goes no further. -/
def usertrap (p : LockProc) : Trap → LockProc
  | .syscall sc => if p.killed then p.goto .exiting else p.goto sc.entry
  | .interrupt => if p.killed then p.goto .exiting else p
  | .fault => { p.goto .exiting with killed := true }

/-- The next critical section of the process in slot `i`; the exit of `init` is a panic. -/
def kernelStep (s : LockSys) (i : Fin nproc) (ok : Bool) : Option LockSys :=
  let p := s.proc i
  match p.pc with
  | .user => none
  | .acquiring => some (acquiresleep s i p)
  | .checking => some (s.put i (p.goto (if holdingsleep s i then .releasing else .ret)))
  | .releasing => some (releasesleep s i p)
  | .reading n target => some (consoleread s i p n target ok)
  | .forking => some (kfork s i p ok)
  | .waiting => some (kwait s i p ok)
  | .killing pid => some (kkill (s.put i (p.goto .ret)) pid)
  | .exiting => if i = initproc then none else some (kexit s i p)
  | .ret => some (s.put i (p.goto (if p.killed then .exiting else .user)))

def lockStep (s : LockSys) : LockLabel → Option LockSys
  | .dispatch i =>
    if (s.proc i).state = .runnable then some (s.put i { s.proc i with state := .running })
    else none
  | .yield i =>
    if (s.proc i).state = .running then some (s.put i { s.proc i with state := .runnable })
    else none
  | .trap i t =>
    if (s.proc i).state = .running ∧ (s.proc i).pc = .user then
      some (s.put i (usertrap (s.proc i) t))
    else none
  | .kernel i ok => if (s.proc i).state = .running then kernelStep s i ok else none
  | .input line => some (wakeup .console { s with input := s.input ++ line })

/-! ## Statement -/

/-- A held lock names a process that is neither UNUSED nor ZOMBIE. -/
def HolderAlive (s : LockSys) : Prop :=
  s.lock.locked = true → ∃ i, (s.proc i).pid = s.lock.pid ∧ (s.proc i).state ≠ .unused ∧
    (s.proc i).state ≠ .zombie

instance (s : LockSys) : Decidable (HolderAlive s) :=
  inferInstanceAs (Decidable (s.lock.locked = true → ∃ i, (s.proc i).pid = s.lock.pid ∧
    (s.proc i).state ≠ .unused ∧ (s.proc i).state ≠ .zombie))

/-- The step does not turn a process into a ZOMBIE for which `holdingsleep` is true. -/
def NoHolderExit (s : LockSys) : LockLabel → LockSys → Prop
  | .kernel i _, _ => (s.proc i).pc = .exiting → holdingsleep s i = false
  | _, _ => True

/-! ## What a step does to the process table -/

/-- The states of a process that has been started and has not exited. -/
def ProcState.started : ProcState → Bool
  | .sleeping | .runnable | .running => true
  | .unused | .used | .zombie => false

/-- A slot keeps its process: same pid, and it neither exits nor comes into being. -/
structure Kept (p q : LockProc) : Prop where
  pid : q.pid = p.pid
  started : p.state.started = true → q.state.started = true
  unused : q.state = .unused ↔ p.state = .unused

theorem Kept.refl (p : LockProc) : Kept p p := ⟨rfl, id, Iff.rfl⟩

theorem Kept.trans {p q r : LockProc} (h : Kept p q) (h' : Kept q r) : Kept p r :=
  ⟨h'.pid.trans h.pid, fun hs => h'.started (h.started hs), h'.unused.trans h.unused⟩

/-- A running process that changes its state among the started ones. -/
theorem Kept.of_started {p q : LockProc} (hpid : q.pid = p.pid) (hp : p.state.started = true)
    (hq : q.state.started = true) : Kept p q := by
  refine ⟨hpid, fun _ => hq, ?_⟩
  constructor <;> intro h <;> simp [h, ProcState.started] at hp hq

theorem Kept.goto (p : LockProc) (pc : Pc) : Kept p (p.goto pc) := ⟨rfl, id, Iff.rfl⟩

theorem Kept.wake (chan : Chan) (p : LockProc) : Kept p (p.wake chan) := by
  unfold LockProc.wake
  split
  · next h => exact .of_started rfl (by simp [h.1, ProcState.started]) rfl
  · exact .refl p

theorem Kept.kill (p : LockProc) : Kept p p.kill := by
  by_cases h : p.state = .sleeping
  · exact .of_started rfl (by simp [h, ProcState.started])
      (by simp [LockProc.kill, h, ProcState.started])
  · exact ⟨rfl, by simp [LockProc.kill, h], by simp [LockProc.kill, h]⟩

/-- Every slot keeps its process. -/
def Frame (s t : LockSys) : Prop := ∀ j, Kept (s.proc j) (t.proc j)

theorem Frame.refl (s : LockSys) : Frame s s := fun j => .refl (s.proc j)

theorem Frame.trans {s t u : LockSys} (h : Frame s t) (h' : Frame t u) : Frame s u :=
  fun j => (h j).trans (h' j)

theorem Frame.put {s : LockSys} {i : Fin nproc} {p : LockProc} (h : Kept (s.proc i) p) :
    Frame s (s.put i p) := by
  intro j
  by_cases hij : j = i
  · subst hij
    simpa [LockSys.put] using h
  · simpa [LockSys.put, Function.update_of_ne hij] using Kept.refl (s.proc j)

theorem Frame.goto (s : LockSys) (i : Fin nproc) (pc : Pc) :
    Frame s (s.put i ((s.proc i).goto pc)) :=
  .put (.goto _ _)

theorem Frame.wakeup (chan : Chan) (s : LockSys) : Frame s (wakeup chan s) :=
  fun j => .wake chan (s.proc j)

theorem Frame.reparent (s : LockSys) (i : Fin nproc) : Frame s (reparent s i) := by
  unfold Kernel.reparent
  split
  · have hadopt : Frame s { s with proc := fun j => (s.proc j).adopt i } := by
      intro j
      simp only [LockProc.adopt]
      split
      · exact ⟨rfl, id, Iff.rfl⟩
      · exact .refl _
    exact hadopt.trans (.wakeup _ _)
  · exact .refl s

theorem Frame.wakeParent (s : LockSys) (p : LockProc) : Frame s (wakeParent s p) := by
  unfold Kernel.wakeParent
  split
  · exact .wakeup _ _
  · exact .refl s

theorem Frame.kkill (s : LockSys) (pid : Nat) : Frame s (kkill s pid) := by
  unfold Kernel.kkill
  split
  · exact .put (.kill _)
  · exact .refl s

/-- The ways a step other than an exit changes the table and the lock. -/
inductive Outcome (s t : LockSys) : Prop where
  | quiet (frame : Frame s t) (nextpid : s.nextpid ≤ t.nextpid) (lock : t.lock = s.lock)
  | acquired (i : Fin nproc) (frame : Frame s t) (nextpid : t.nextpid = s.nextpid)
      (running : (s.proc i).state = .running) (lock : t.lock = ⟨true, (s.proc i).pid⟩)
  | released (frame : Frame s t) (nextpid : t.nextpid = s.nextpid) (lock : t.lock = ⟨false, 0⟩)
  | forked (c : Fin nproc) (unused : (s.proc c).state = .unused)
      (started : (t.proc c).state.started = true) (pid : (t.proc c).pid = s.nextpid)
      (others : ∀ j, j ≠ c → Kept (s.proc j) (t.proc j)) (nextpid : t.nextpid = s.nextpid + 1)
      (lock : t.lock = s.lock)
  | freed (c : Fin nproc) (dead : (s.proc c).state.started = false) (free : t.proc c = .free)
      (others : ∀ j, j ≠ c → Kept (s.proc j) (t.proc j)) (nextpid : s.nextpid ≤ t.nextpid)
      (lock : t.lock = s.lock)

theorem acquiresleep_outcome {s : LockSys} {i : Fin nproc} (hi : (s.proc i).state = .running) :
    Outcome s (acquiresleep s i (s.proc i)) := by
  unfold acquiresleep
  split
  · exact .quiet (.put (.of_started rfl (by simp [hi, ProcState.started]) rfl)) le_rfl rfl
  · exact .acquired i (Frame.goto s i .ret) rfl hi rfl

theorem consoleread_outcome {s : LockSys} {i : Fin nproc} (hi : (s.proc i).state = .running)
    (n target : Nat) (ok : Bool) : Outcome s (consoleread s i (s.proc i) n target ok) := by
  have hgoto : ∀ (pc : Pc) (input : List UInt8),
      Outcome s { s.put i ((s.proc i).goto pc) with input := input } :=
    fun pc _ => .quiet (Frame.goto s i pc) le_rfl rfl
  unfold consoleread
  split
  · exact .quiet (Frame.goto s i .ret) le_rfl rfl
  split
  · split
    · exact .quiet (Frame.goto s i .ret) le_rfl rfl
    · exact .quiet (.put (.of_started rfl (by simp [hi, ProcState.started]) rfl)) le_rfl rfl
  split
  · exact hgoto _ _
  split
  · exact hgoto _ _
  · exact hgoto _ _

theorem kkill_outcome (s : LockSys) (i : Fin nproc) (pid : Nat) :
    Outcome s (kkill (s.put i ((s.proc i).goto .ret)) pid) := by
  have hframe := (Frame.goto s i .ret).trans (.kkill _ pid)
  unfold kkill at hframe ⊢
  split at hframe <;> exact .quiet hframe le_rfl rfl

theorem kfork_outcome (s : LockSys) (i : Fin nproc) (ok : Bool) :
    Outcome s (kfork s i (s.proc i) ok) := by
  unfold kfork
  dsimp only
  split
  · exact .quiet (Frame.goto s i .ret) le_rfl rfl
  · next c hc =>
    have hunused : (s.proc c).state = .unused := by simpa using List.find?_some hc
    have hothers : ∀ j, j ≠ c → ∀ q, Kept (s.proc j)
        (((s.put i ((s.proc i).goto .ret)).put c q).proc j) := by
      intro j hj q
      simpa [LockSys.put, Function.update_of_ne hj] using Frame.goto s i .ret j
    split
    · refine .forked c hunused ?_ ?_ (fun j hj => hothers j hj _) rfl rfl
      · simp [LockSys.put, ProcState.started]
      · simp [LockSys.put]
    · refine .freed c (by simp [hunused, ProcState.started]) ?_ (fun j hj => hothers j hj _)
        (Nat.le_succ _) rfl
      simp [LockSys.put]

theorem kwait_outcome {s : LockSys} {i : Fin nproc} (hi : (s.proc i).state = .running)
    (ok : Bool) : Outcome s (kwait s i (s.proc i) ok) := by
  unfold kwait
  split
  · next c hc =>
    have hzombie : (s.proc c).state = .zombie := by
      have := List.find?_some hc
      simp only [decide_eq_true_eq] at this
      exact this.2
    split
    · refine .freed c (by simp [hzombie, ProcState.started]) ?_ ?_ le_rfl rfl
      · simp [LockSys.put]
      · intro j hj
        simpa [LockSys.put, Function.update_of_ne hj] using Frame.goto s i .ret j
    · exact .quiet (Frame.goto s i .ret) le_rfl rfl
  · split
    · exact .quiet (Frame.goto s i .ret) le_rfl rfl
    · exact .quiet (.put (.of_started rfl (by simp [hi, ProcState.started]) rfl)) le_rfl rfl

/-- Every kernel step that is not the end of `kexit`. -/
theorem kernelStep_outcome {s t : LockSys} {i : Fin nproc} {ok : Bool}
    (hi : (s.proc i).state = .running) (hpc : (s.proc i).pc ≠ .exiting)
    (h : kernelStep s i ok = some t) : Outcome s t := by
  unfold kernelStep at h
  dsimp only at h
  split at h
  case h_1 => cases h
  case h_9 hexit => exact absurd hexit hpc
  all_goals obtain rfl := Option.some.inj h
  case h_2 => exact acquiresleep_outcome hi
  case h_3 => exact .quiet (Frame.goto s i _) le_rfl rfl
  case h_4 => exact .released ((Frame.goto s i .ret).trans (.wakeup _ _)) rfl rfl
  case h_5 => exact consoleread_outcome hi _ _ ok
  case h_6 => exact kfork_outcome s i ok
  case h_7 => exact kwait_outcome hi ok
  case h_8 => exact kkill_outcome s i _
  case h_10 => exact .quiet (Frame.goto s i _) le_rfl rfl

/-- Any step that is not the end of `kexit`. -/
theorem lockStep_outcome {s t : LockSys} {l : LockLabel} (h : lockStep s l = some t)
    (hexit : ∀ i ok, l = .kernel i ok → (s.proc i).pc ≠ .exiting) : Outcome s t := by
  cases l with
  | dispatch i =>
    simp only [lockStep] at h
    split at h
    · next hi =>
      obtain rfl := Option.some.inj h
      exact .quiet (.put (.of_started rfl (by simp [hi, ProcState.started]) rfl)) le_rfl rfl
    · cases h
  | yield i =>
    simp only [lockStep] at h
    split at h
    · next hi =>
      obtain rfl := Option.some.inj h
      exact .quiet (.put (.of_started rfl (by simp [hi, ProcState.started]) rfl)) le_rfl rfl
    · cases h
  | trap i t =>
    simp only [lockStep] at h
    split at h
    · obtain rfl := Option.some.inj h
      refine .quiet (.put ?_) le_rfl rfl
      cases t <;> simp only [usertrap]
      · split <;> exact .goto _ _
      · split
        · exact .goto _ _
        · exact .refl _
      · exact ⟨rfl, id, Iff.rfl⟩
    · cases h
  | kernel i ok =>
    simp only [lockStep] at h
    split at h
    · next hi => exact kernelStep_outcome hi (hexit i ok rfl) h
    · cases h
  | input line =>
    obtain rfl := Option.some.inj h
    exact .quiet (.wakeup _ _) le_rfl rfl

/-- The end of `kexit`: the process is a ZOMBIE under its pid, and the lock is not looked at. -/
theorem lockStep_exit {s t : LockSys} {i : Fin nproc} {ok : Bool}
    (h : lockStep s (.kernel i ok) = some t) (hpc : (s.proc i).pc = .exiting) :
    (s.proc i).state = .running ∧ (t.proc i).state = .zombie ∧ (t.proc i).pid = (s.proc i).pid ∧
      (∀ j, j ≠ i → Kept (s.proc j) (t.proc j)) ∧ t.nextpid = s.nextpid ∧ t.lock = s.lock := by
  simp only [lockStep] at h
  split at h
  · next hi =>
    simp only [kernelStep, hpc] at h
    split at h
    · cases h
    · obtain rfl := Option.some.inj h
      have hframe : Frame s (wakeParent (reparent s i) (s.proc i)) :=
        (Frame.reparent s i).trans (.wakeParent _ _)
      have hrest : (wakeParent (reparent s i) (s.proc i)).nextpid = s.nextpid ∧
          (wakeParent (reparent s i) (s.proc i)).lock = s.lock := by
        unfold wakeParent reparent
        split <;> split <;> exact ⟨rfl, rfl⟩
      refine ⟨hi, by simp [kexit, LockSys.put], ?_, ?_, hrest⟩
      · simpa [kexit, LockSys.put] using (hframe i).pid
      · intro j hj
        simpa [kexit, LockSys.put, Function.update_of_ne hj] using hframe j
  · cases h

/-! ## Invariant and runs -/

/-- Pids are fresh and distinct, and a held lock names a started process. -/
structure LockInv (s : LockSys) : Prop where
  fresh : ∀ i, (s.proc i).pid < s.nextpid
  distinct : ∀ i j, (s.proc i).pid = (s.proc j).pid → (s.proc i).pid ≠ 0 → i = j
  pid_ne_zero : ∀ i, (s.proc i).state ≠ .unused → (s.proc i).pid ≠ 0
  holder : s.lock.locked = true →
    ∃ i, (s.proc i).pid = s.lock.pid ∧ (s.proc i).state.started = true

theorem LockInv.boot : LockInv .boot where
  fresh := by decide
  distinct := by decide
  pid_ne_zero := by decide
  holder := by simp [LockSys.boot]

theorem LockInv.holderAlive {s : LockSys} (h : LockInv s) : HolderAlive s := by
  intro hlocked
  obtain ⟨i, hpid, hstarted⟩ := h.holder hlocked
  refine ⟨i, hpid, ?_, ?_⟩ <;> intro hstate <;> simp [hstate, ProcState.started] at hstarted

/-- A frame keeps everything but what the lock says. -/
theorem LockInv.frame {s t : LockSys} (h : LockInv s) (hframe : Frame s t)
    (hnext : s.nextpid ≤ t.nextpid)
    (hholder : t.lock.locked = true →
      ∃ i, (t.proc i).pid = t.lock.pid ∧ (t.proc i).state.started = true) : LockInv t where
  fresh i := (hframe i).pid ▸ (h.fresh i).trans_le hnext
  distinct i j hij hne := by
    rw [(hframe i).pid, (hframe j).pid] at hij
    exact h.distinct i j hij ((hframe i).pid ▸ hne)
  pid_ne_zero i hi := (hframe i).pid ▸ h.pid_ne_zero i fun hu => hi ((hframe i).unused.mpr hu)
  holder := hholder

/-- The holder survives a step in which its slot keeps its process and the lock its owner. -/
theorem LockInv.holder_kept {s t : LockSys} (h : LockInv s) (hlock : t.lock = s.lock)
    (hkept : ∀ i, (s.proc i).state.started = true → (s.proc i).pid = s.lock.pid →
      s.lock.locked = true → Kept (s.proc i) (t.proc i)) (hlocked : t.lock.locked = true) :
    ∃ i, (t.proc i).pid = t.lock.pid ∧ (t.proc i).state.started = true := by
  rw [hlock] at hlocked ⊢
  obtain ⟨i, hpid, hstarted⟩ := h.holder hlocked
  have hk := hkept i hstarted hpid hlocked
  exact ⟨i, hk.pid.trans hpid, hk.started hstarted⟩

theorem LockInv.outcome {s t : LockSys} (h : LockInv s) (ho : Outcome s t) : LockInv t := by
  cases ho with
  | quiet hframe hnext hlock =>
    exact h.frame hframe hnext (h.holder_kept hlock fun i _ _ _ => hframe i)
  | acquired i hframe hnext hrunning hlock =>
    refine h.frame hframe hnext.ge fun _ => ⟨i, ?_, (hframe i).started ?_⟩
    · rw [hlock]
      exact (hframe i).pid
    · simp [hrunning, ProcState.started]
  | released hframe hnext hlock =>
    refine h.frame hframe hnext.ge fun hlocked => ?_
    simp [hlock] at hlocked
  | forked c hunused hstarted hpid hothers hnext hlock =>
    have hnew : ∀ j, j ≠ c → (t.proc j).pid ≠ (t.proc c).pid := by
      intro j hj heq
      have := h.fresh j
      rw [(hothers j hj).pid, hpid] at heq
      omega
    refine ⟨fun i => ?_, fun i j hij hne => ?_, fun i hi => ?_, ?_⟩
    · by_cases hi : i = c
      · subst hi
        omega
      · have := h.fresh i
        rw [(hothers i hi).pid]
        omega
    · by_cases hi : i = c <;> by_cases hj : j = c
      · exact hi.trans hj.symm
      · exact absurd (hi ▸ hij).symm (hnew j hj)
      · exact absurd (hj ▸ hij) (hnew i hi)
      · rw [(hothers i hi).pid, (hothers j hj).pid] at hij
        exact h.distinct i j hij ((hothers i hi).pid ▸ hne)
    · by_cases hic : i = c
      · subst hic
        have := h.fresh i
        omega
      · rw [(hothers i hic).pid]
        exact h.pid_ne_zero i fun hu => hi ((hothers i hic).unused.mpr hu)
    · refine h.holder_kept hlock fun i hs _ _ => hothers i ?_
      rintro rfl
      simp [hunused, ProcState.started] at hs
  | freed c hdead hfree hothers hnext hlock =>
    refine ⟨fun i => ?_, fun i j hij hne => ?_, fun i hi => ?_, ?_⟩
    · by_cases hi : i = c
      · subst hi
        have := h.fresh i
        rw [hfree]
        exact (Nat.zero_le _).trans_lt (this.trans_le hnext)
      · rw [(hothers i hi).pid]
        exact (h.fresh i).trans_le hnext
    · by_cases hi : i = c <;> by_cases hj : j = c
      · exact hi.trans hj.symm
      · subst hi
        exact absurd (by rw [hfree]; rfl) hne
      · subst hj
        exact absurd (by rw [hij, hfree]; rfl) hne
      · rw [(hothers i hi).pid, (hothers j hj).pid] at hij
        exact h.distinct i j hij ((hothers i hi).pid ▸ hne)
    · by_cases hic : i = c
      · subst hic
        exact absurd (by rw [hfree]; rfl) hi
      · rw [(hothers i hic).pid]
        exact h.pid_ne_zero i fun hu => hi ((hothers i hic).unused.mpr hu)
    · refine h.holder_kept hlock fun i hs _ _ => hothers i ?_
      rintro rfl
      simp [hdead] at hs

theorem holdingsleep_eq_false_iff {s : LockSys} {i : Fin nproc} :
    holdingsleep s i = false ↔ (s.lock.locked = true → s.lock.pid ≠ (s.proc i).pid) := by
  simp [holdingsleep]

/-- An exit leaves a live holder, and the invariant, exactly if the process does not hold the
lock. -/
theorem LockInv.exit_iff {s t : LockSys} (h : LockInv s) {i : Fin nproc} {ok : Bool}
    (hstep : lockStep s (.kernel i ok) = some t) (hpc : (s.proc i).pc = .exiting) :
    (HolderAlive t ↔ holdingsleep s i = false) ∧ (holdingsleep s i = false → LockInv t) := by
  obtain ⟨hrunning, hzombie, hpid, hothers, hnext, hlock⟩ := lockStep_exit hstep hpc
  have hpids : ∀ j, (t.proc j).pid = (s.proc j).pid := fun j =>
    if hj : j = i then hj ▸ hpid else (hothers j hj).pid
  have hinv : holdingsleep s i = false → LockInv t := by
    intro hfree
    rw [holdingsleep_eq_false_iff] at hfree
    refine ⟨fun j => ?_, fun j k hjk hne => ?_, fun j hj => ?_, ?_⟩
    · rw [hpids, hnext]
      exact h.fresh j
    · rw [hpids, hpids] at hjk
      exact h.distinct j k hjk (hpids j ▸ hne)
    · rw [hpids]
      refine h.pid_ne_zero j fun hu => ?_
      by_cases hji : j = i
      · simp [hji, hrunning] at hu
      · exact hj ((hothers j hji).unused.mpr hu)
    · refine h.holder_kept hlock fun j _ hjpid hlocked => hothers j ?_
      rintro rfl
      exact hfree hlocked hjpid.symm
  refine ⟨⟨fun halive => ?_, fun hfree => (hinv hfree).holderAlive⟩, hinv⟩
  rw [holdingsleep_eq_false_iff]
  intro hlocked hpidi
  obtain ⟨j, hj, -, hnz⟩ := halive (hlock ▸ hlocked)
  -- pids are distinct, so the only process the lock can name is the ZOMBIE
  have hne : (s.proc i).pid ≠ 0 := h.pid_ne_zero i (by simp [hrunning])
  obtain rfl : i = j := by
    refine h.distinct i j ?_ hne
    rw [← hpids j, hj, hlock, hpidi]
  exact hnz hzombie

/-- In every interleaving from boot: a held lock names a live process in every state exactly if no
process turns ZOMBIE while it holds the lock. -/
theorem holderAlive_iff_noHolderExit (labels : List LockLabel) :
    Along lockStep (fun _ _ t => HolderAlive t) .boot labels ↔
      Along lockStep NoHolderExit .boot labels := by
  refine along_iff_of_invariant LockInv ?_ ?_ .boot (along_true _ labels)
  · intro s l t hs hstep _
    by_cases hexit : ∀ i ok, l = .kernel i ok → (s.proc i).pc ≠ .exiting
    · refine iff_of_true (hs.outcome (lockStep_outcome hstep hexit)).holderAlive ?_
      cases l with
      | kernel i ok => exact fun hpc => absurd hpc (hexit i ok rfl)
      | _ => trivial
    · push Not at hexit
      obtain ⟨i, ok, rfl, hpc⟩ := hexit
      exact (hs.exit_iff hstep hpc).1.trans ⟨fun h _ => h, fun h => h hpc⟩
  · intro s l t hs hstep _ hcond
    by_cases hexit : ∀ i ok, l = .kernel i ok → (s.proc i).pc ≠ .exiting
    · exact hs.outcome (lockStep_outcome hstep hexit)
    · push Not at hexit
      obtain ⟨i, ok, rfl, hpc⟩ := hexit
      exact (hs.exit_iff hstep hpc).2 (hcond hpc)

/-- The child of `init` takes the lock and waits for console input; `init` kills it. -/
def killedReader : List LockLabel :=
  let call (i : Fin nproc) (sc : Syscall) : List LockLabel :=
    [.trap i (.syscall sc), .kernel i true]
  .dispatch 0 :: call 0 .fork ++ [.kernel 0 true, .dispatch 1] ++ call 1 .proxylock ++
    [.kernel 1 true] ++ call 1 (.read 1) ++ call 0 (.kill 2) ++
    [.dispatch 1, .kernel 1 true, .kernel 1 true, .kernel 1 true]

/-- The killed reader exits on its way back to user space and takes the lock with it. -/
theorem lock_held_by_zombie :
    ¬ ∀ labels : List LockLabel, Along lockStep (fun _ _ t => HolderAlive t) .boot labels := by
  intro h
  exact absurd (h killedReader) (by decide +kernel)

end LiberalOS.Kernel
