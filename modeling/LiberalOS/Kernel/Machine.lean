import LiberalOS.Kernel.ProxyLock

/-!
# All CPUs over one process table

Any number of CPUs, each in its own iteration of the outer loop of `scheduler()`, with the other
code of `kernel/proc.c` that changes the state of a process. A transition is one critical section
under the lock of a process. A process that gives up its CPU holds its lock from the change of its
state until the scheduler has cleared `c->proc`, so that `yield`, `sleep` and `exit` take the CPU
back to the start of a round in one transition.

## Main results

* `work_conserving` — a CPU goes idle only after a round in which no process was RUNNABLE all along,
  and every RUNNING process is current on exactly one CPU.
-/
namespace LiberalOS.Kernel
open Foundation

/-! ## States -/

/-- The fields of `struct proc` that are read or written here; channel 0 is none. -/
structure Proc where
  state : ProcState
  priority : Int
  chan : Nat
  pid : Nat
  killed : Bool
  parent : Option (Fin nproc)

/-- `c->proc` and the locals of `scheduler()` on that CPU. -/
structure Cpu where
  proc : Option (Fin nproc)
  anyRunnable : Bool
  maxPrio : Int
  phase : Phase

structure Machine (n : Nat) where
  proc : Fin nproc → Proc
  cpu : Fin n → Cpu
  nextpid : Nat

/-- A slot after `freeproc`. -/
def Proc.free : Proc := ⟨.unused, 0, 0, 0, false, none⟩

/-- The start of an iteration of the outer loop. -/
def Cpu.newRound : Cpu := ⟨none, false, 0, .pass1 0⟩

/-- After `userinit` every CPU enters `scheduler()`. -/
def Machine.boot (n : Nat) : Machine n where
  proc i := if i = initproc then ⟨.runnable, 0, 0, 1, false, none⟩ else .free
  cpu _ := .newRound
  nextpid := 2

section
variable {n : Nat}

def Machine.setProc (m : Machine n) (i : Fin nproc) (p : Proc) : Machine n :=
  { m with proc := Function.update m.proc i p }

def Machine.setCpu (m : Machine n) (c : Fin n) (x : Cpu) : Machine n :=
  { m with cpu := Function.update m.cpu c x }

/-- `sched()` by the process in slot `i` of CPU `c`, whose new state is in `p`. -/
def Machine.sched (m : Machine n) (c : Fin n) (i : Fin nproc) (p : Proc) : Machine n :=
  (m.setProc i p).setCpu c .newRound

/-- The round of a CPU. -/
def Machine.round (m : Machine n) (c : Fin n) : Round where
  proc j := ⟨(m.proc j).state, (m.proc j).priority⟩
  anyRunnable := (m.cpu c).anyRunnable
  maxPrio := (m.cpu c).maxPrio
  phase := (m.cpu c).phase

/-! ## Steps -/

/-- The next scan step of a CPU. -/
def Machine.scan (m : Machine n) (c : Fin n) : Option (Machine n) :=
  match scanStep (m.round c) with
  | none => none
  | some ⟨proc, anyRunnable, maxPrio, .dispatched p pass⟩ =>
    -- a process that comes out of `sleep` clears its channel before it releases its lock
    some ((m.setProc p { m.proc p with state := (proc p).state, chan := 0 }).setCpu c
      ⟨some p, anyRunnable, maxPrio, .dispatched p pass⟩)
  | some ⟨_, anyRunnable, maxPrio, phase⟩ => some (m.setCpu c ⟨none, anyRunnable, maxPrio, phase⟩)

/-- `reparent`; the wakeups of init are transitions of their own. -/
def Machine.reparent (m : Machine n) (p : Fin nproc) : Machine n :=
  { m with
    proc := fun j => if (m.proc j).parent = some p then { m.proc j with parent := some initproc }
      else m.proc j }

/-- What happens next. An interrupt ends the `wfi` of a CPU. A `wakeup` or `kill` is its visit to
one slot, and the last three parts of `kfork` are apart: the child is allocated, gets its parent,
and becomes RUNNABLE. -/
inductive MachineLabel (n : Nat) where
  | scan (c : Fin n)
  | interrupt (c : Fin n)
  | yield (c : Fin n)
  | sleep (c : Fin n) (chan : Nat)
  | wakeup (i : Fin nproc) (chan : Nat)
  | kill (i : Fin nproc) (pid : Nat)
  | fork (c : Fin n) (i : Fin nproc) (ok : Bool)
  | forkParent (c : Fin n) (i : Fin nproc)
  | forkReady (i : Fin nproc)
  | exit (c : Fin n)
  | wait (c : Fin n) (i : Fin nproc)
  | setprio (c : Fin n) (prio : Int)
  deriving DecidableEq

/-- A visit of `wakeup` to a slot. The slot of the caller is skipped in the source; it is RUNNING,
so that the visit would do nothing. -/
def Proc.wakeup (p : Proc) (chan : Nat) : Proc :=
  if p.state = .sleeping ∧ p.chan = chan then { p with state := .runnable } else p

def Proc.kill (p : Proc) (pid : Nat) : Proc :=
  if p.pid = pid then
    { p with killed := true, state := if p.state = .sleeping then .runnable else p.state }
  else p

/-- The child between `allocproc` and the end of `kfork`; without memory the slot is freed again. -/
def forked (parent : Proc) (pid : Nat) (ok : Bool) : Proc :=
  if ok then { Proc.free with state := .used, pid := pid, priority := parent.priority } else .free

/-- A system call of the process that runs on the CPU. -/
def Machine.syscall (m : Machine n) (c : Fin n) (body : Fin nproc → Proc → Option (Machine n)) :
    Option (Machine n) :=
  (m.cpu c).proc.bind fun p => body p (m.proc p)

def machineStep (m : Machine n) : MachineLabel n → Option (Machine n)
  | .scan c => m.scan c
  | .interrupt c => if (m.cpu c).phase = .wfi then some (m.setCpu c .newRound) else none
  | .yield c => m.syscall c fun i p => some (m.sched c i { p with state := .runnable })
  | .sleep c chan => m.syscall c fun i p =>
    some (m.sched c i { p with state := .sleeping, chan := chan })
  | .wakeup i chan => some (m.setProc i ((m.proc i).wakeup chan))
  | .kill i pid => some (m.setProc i ((m.proc i).kill pid))
  | .fork c i ok => m.syscall c fun _ p =>
    if (m.proc i).state = .unused then
      some { m.setProc i (forked p m.nextpid ok) with nextpid := m.nextpid + 1 }
    else none
  | .forkParent c i => m.syscall c fun p _ =>
    if (m.proc i).state = .used then some (m.setProc i { m.proc i with parent := some p }) else none
  | .forkReady i =>
    if (m.proc i).state = .used then some (m.setProc i { m.proc i with state := .runnable })
    else none
  | .exit c => m.syscall c fun i p =>
    if i = initproc then none else some ((m.reparent i).sched c i { p with state := .zombie })
  | .wait c i => m.syscall c fun p _ =>
    if (m.proc i).parent = some p ∧ (m.proc i).state = .zombie then some (m.setProc i .free)
    else none
  | .setprio c prio => m.syscall c fun i p =>
    some (m.setProc i { p with priority := max (-20) (min prio 19) })

/-- The CPU begins an iteration of its outer loop. -/
def MachineLabel.startsRound (c : Fin n) : MachineLabel n → Bool
  | .interrupt d | .yield d | .sleep d _ | .exit d => d = c
  | _ => false

/-! ## What a step does -/

@[simp] theorem Machine.setProc_cpu (m : Machine n) (i : Fin nproc) (p : Proc) :
    (m.setProc i p).cpu = m.cpu := rfl

@[simp] theorem Machine.setProc_self (m : Machine n) (i : Fin nproc) (p : Proc) :
    (m.setProc i p).proc i = p := Function.update_self _ _ _

theorem Machine.setProc_of_ne (m : Machine n) {i j : Fin nproc} (h : j ≠ i) (p : Proc) :
    (m.setProc i p).proc j = m.proc j := Function.update_of_ne h _ _

@[simp] theorem Machine.setCpu_proc (m : Machine n) (c : Fin n) (x : Cpu) :
    (m.setCpu c x).proc = m.proc := rfl

@[simp] theorem Machine.setCpu_self (m : Machine n) (c : Fin n) (x : Cpu) :
    (m.setCpu c x).cpu c = x := Function.update_self _ _ _

theorem Machine.setCpu_of_ne (m : Machine n) {c d : Fin n} (h : d ≠ c) (x : Cpu) :
    (m.setCpu c x).cpu d = m.cpu d := Function.update_of_ne h _ _

/-- A scan step dispatches a RUNNABLE process or goes on with the table as it is. -/
theorem scanStep_cases {r t : Round} (h : scanStep r = some t) :
    (∀ p pass, r.phase ≠ .dispatched p pass) ∧
      ((∃ p pass, (r.proc p).state = .runnable ∧ t = r.dispatch p pass) ∨
        ∀ p pass, t.phase ≠ .dispatched p pass) := by
  obtain ⟨proc, anyRunnable, maxPrio, phase⟩ := r
  cases phase with
  | pass1 i =>
    refine ⟨by simp, Or.inr ?_⟩
    simp only [scanStep] at h
    split at h
    · split at h <;> obtain rfl := Option.some.inj h <;> simp
    · split at h <;> obtain rfl := Option.some.inj h <;> simp
  | pass2 i =>
    refine ⟨by simp, ?_⟩
    simp only [scanStep] at h
    split at h
    · split at h <;> obtain rfl := Option.some.inj h
      · next hi hp => exact Or.inl ⟨⟨i, hi⟩, .maxPriority, hp.1, rfl⟩
      · exact Or.inr (by simp)
    · obtain rfl := Option.some.inj h
      exact Or.inr (by simp)
  | fallback i =>
    refine ⟨by simp, ?_⟩
    simp only [scanStep] at h
    split at h
    · split at h <;> obtain rfl := Option.some.inj h
      · next hi hp => exact Or.inl ⟨⟨i, hi⟩, .fallback, hp, rfl⟩
      · exact Or.inr (by simp)
    · obtain rfl := Option.some.inj h
      exact Or.inr (by simp)
  | dispatched p pass => simp [scanStep] at h
  | wfi => simp [scanStep] at h

/-- The same for a CPU of the machine. -/
theorem Machine.scan_cases {m t : Machine n} {c : Fin n} (h : m.scan c = some t) :
    (∀ p pass, (m.cpu c).phase ≠ .dispatched p pass) ∧
      ((∃ p pass x, (m.proc p).state = .runnable ∧ x.proc = some p ∧
          x.phase = .dispatched p pass ∧
          t = (m.setProc p { m.proc p with state := .running, chan := 0 }).setCpu c x) ∨
        ∃ x, x.proc = none ∧ t = m.setCpu c x) := by
  cases hr : scanStep (m.round c) with
  | none => simp [Machine.scan, hr] at h
  | some r =>
    obtain ⟨hphase, ⟨p, pass, hp, rfl⟩ | hgo⟩ := scanStep_cases hr
    · refine ⟨hphase, Or.inl ⟨p, pass,
        ⟨some p, (m.cpu c).anyRunnable, (m.cpu c).maxPrio, .dispatched p pass⟩, hp, rfl, rfl, ?_⟩⟩
      simp only [Machine.scan, hr, Round.dispatch, Option.some.injEq, Function.update_self] at h
      exact h.symm
    · refine ⟨hphase, Or.inr ⟨⟨none, r.anyRunnable, r.maxPrio, r.phase⟩, rfl, ?_⟩⟩
      obtain ⟨proc, anyRunnable, maxPrio, phase⟩ := r
      cases phase with
      | dispatched p pass => exact absurd rfl (hgo p pass)
      | _ => simpa [Machine.scan, hr] using h.symm

theorem Machine.scan_cpu_of_ne {m t : Machine n} {c d : Fin n} (h : m.scan d = some t)
    (hne : c ≠ d) : t.cpu c = m.cpu c := by
  obtain ⟨-, ⟨p, pass, x, -, -, -, rfl⟩ | ⟨x, -, rfl⟩⟩ := Machine.scan_cases h
  · exact Machine.setCpu_of_ne _ hne _
  · exact Machine.setCpu_of_ne _ hne _

/-- A system call acts for the process that is current on the CPU. -/
theorem Machine.syscall_eq_some {m t : Machine n} {c : Fin n}
    {body : Fin nproc → Proc → Option (Machine n)} (h : m.syscall c body = some t) :
    ∃ p, (m.cpu c).proc = some p ∧ body p (m.proc p) = some t := Option.bind_eq_some_iff.mp h

/-- One slot changes, and no process starts or stops running. -/
def Machine.Quiet (m t : Machine n) : Prop :=
  ∃ i, ((t.proc i).state = .running ↔ (m.proc i).state = .running) ∧
    (∀ j, j ≠ i → t.proc j = m.proc j) ∧ t.cpu = m.cpu

/-- The process that is current on the CPU gives it up. -/
def Machine.Leaves (m t : Machine n) (c : Fin n) : Prop :=
  ∃ i, (m.cpu c).proc = some i ∧ (t.proc i).state ≠ .running ∧
    (∀ j, j ≠ i → (t.proc j).state = (m.proc j).state) ∧ t.cpu = (m.setCpu c .newRound).cpu

theorem Machine.reparent_state (m : Machine n) (p j : Fin nproc) :
    ((m.reparent p).proc j).state = (m.proc j).state := by
  simp only [Machine.reparent]
  split <;> rfl

theorem Machine.reparent_priority (m : Machine n) (p j : Fin nproc) :
    ((m.reparent p).proc j).priority = (m.proc j).priority := by
  simp only [Machine.reparent]
  split <;> rfl

/-- The transitions that change one slot, with their guards and what they put there. -/
inductive SlotChange (m : Machine n) : MachineLabel n → Fin nproc → Proc → Prop where
  | wakeup (i : Fin nproc) (chan : Nat) : SlotChange m (.wakeup i chan) i ((m.proc i).wakeup chan)
  | kill (i : Fin nproc) (pid : Nat) : SlotChange m (.kill i pid) i ((m.proc i).kill pid)
  | fork (c : Fin n) (i p : Fin nproc) (ok : Bool) (h : (m.proc i).state = .unused) :
    SlotChange m (.fork c i ok) i (forked (m.proc p) m.nextpid ok)
  | forkParent (c : Fin n) (i p : Fin nproc) :
    SlotChange m (.forkParent c i) i { m.proc i with parent := some p }
  | forkReady (i : Fin nproc) (h : (m.proc i).state = .used) :
    SlotChange m (.forkReady i) i { m.proc i with state := .runnable }
  | wait (c : Fin n) (i : Fin nproc) (h : (m.proc i).state = .zombie) :
    SlotChange m (.wait c i) i .free
  | setprio (c : Fin n) (i : Fin nproc) (prio : Int) (h : (m.cpu c).proc = some i) :
    SlotChange m (.setprio c prio) i { m.proc i with priority := max (-20) (min prio 19) }

/-- What a transition does. A process that gives up its CPU may hand its children to init first,
which changes no state and no priority. -/
inductive Machine.Does (m : Machine n) : MachineLabel n → Machine n → Prop where
  | scan {c : Fin n} {t : Machine n} (h : m.scan c = some t) : m.Does (.scan c) t
  | interrupt {c : Fin n} (h : (m.cpu c).phase = .wfi) :
    m.Does (.interrupt c) (m.setCpu c .newRound)
  | leave {a : MachineLabel n} {c : Fin n} {i : Fin nproc} {p : Proc} {b : Machine n}
    (hstart : a.startsRound c = true) (hi : (m.cpu c).proc = some i) (hcpu : b.cpu = m.cpu)
    (hstate : ∀ j, (b.proc j).state = (m.proc j).state)
    (hprio : ∀ j, (b.proc j).priority = (m.proc j).priority) (hp : p.state ≠ .running)
    (hpprio : p.priority = (m.proc i).priority) : m.Does a (b.sched c i p)
  | slot {a : MachineLabel n} {i : Fin nproc} {p : Proc} {t : Machine n} (h : SlotChange m a i p)
    (hproc : t.proc = (m.setProc i p).proc) (hcpu : t.cpu = m.cpu) : m.Does a t

theorem machineStep_does {m t : Machine n} {a : MachineLabel n} (h : machineStep m a = some t) :
    m.Does a t := by
  cases a with
  | scan c => exact .scan h
  | interrupt c =>
    simp only [machineStep, Option.ite_none_right_eq_some, Option.some.injEq] at h
    obtain ⟨hphase, rfl⟩ := h
    exact .interrupt hphase
  | yield c | sleep c chan =>
    simp only [machineStep] at h
    obtain ⟨i, hi, hbody⟩ := Machine.syscall_eq_some h
    obtain rfl := Option.some.inj hbody
    exact .leave (by simp [MachineLabel.startsRound]) hi rfl (fun _ => rfl) (fun _ => rfl)
      (by simp) rfl
  | exit c =>
    simp only [machineStep] at h
    obtain ⟨i, hi, hbody⟩ := Machine.syscall_eq_some h
    split at hbody
    · cases hbody
    · obtain rfl := Option.some.inj hbody
      exact .leave (by simp [MachineLabel.startsRound]) hi rfl (m.reparent_state i)
        (m.reparent_priority i) (by simp) rfl
  | wakeup i chan =>
    obtain rfl := Option.some.inj h
    exact .slot (.wakeup i chan) rfl rfl
  | kill i pid =>
    obtain rfl := Option.some.inj h
    exact .slot (.kill i pid) rfl rfl
  | fork c i ok =>
    simp only [machineStep] at h
    obtain ⟨p, -, hbody⟩ := Machine.syscall_eq_some h
    split at hbody
    · next hunused =>
      obtain rfl := Option.some.inj hbody
      exact .slot (.fork c i p ok hunused) rfl rfl
    · cases hbody
  | forkParent c i =>
    simp only [machineStep] at h
    obtain ⟨p, -, hbody⟩ := Machine.syscall_eq_some h
    split at hbody
    · obtain rfl := Option.some.inj hbody
      exact .slot (.forkParent c i p) rfl rfl
    · cases hbody
  | forkReady i =>
    simp only [machineStep] at h
    split at h
    · next hused =>
      obtain rfl := Option.some.inj h
      exact .slot (.forkReady i hused) rfl rfl
    · cases h
  | wait c i =>
    simp only [machineStep] at h
    obtain ⟨p, -, hbody⟩ := Machine.syscall_eq_some h
    split at hbody
    · next hzombie =>
      obtain rfl := Option.some.inj hbody
      exact .slot (.wait c i hzombie.2) rfl rfl
    · cases hbody
  | setprio c prio =>
    simp only [machineStep] at h
    obtain ⟨i, hi, hbody⟩ := Machine.syscall_eq_some h
    obtain rfl := Option.some.inj hbody
    exact .slot (.setprio c i prio hi) rfl rfl

theorem SlotChange.running_iff {m : Machine n} {a : MachineLabel n} {i : Fin nproc} {p : Proc}
    (h : SlotChange m a i p) : p.state = .running ↔ (m.proc i).state = .running := by
  cases h with
  | wakeup i chan =>
    simp only [Proc.wakeup]
    grind
  | kill i pid =>
    simp only [Proc.kill]
    grind
  | fork c i p ok hunused => cases ok <;> simp [forked, Proc.free, hunused]
  | forkParent c i p => exact Iff.rfl
  | forkReady i hused => simp [hused]
  | wait c i hzombie => simp [Proc.free, hzombie]
  | setprio c i prio hi => exact Iff.rfl

/-- Every transition is a scan step, the end of a `wfi`, a process giving up its CPU, or a change of
one slot that starts and stops no process. -/
theorem machineStep_cases {m t : Machine n} {a : MachineLabel n} (h : machineStep m a = some t) :
    (∃ c, a = .scan c ∧ m.scan c = some t) ∨
      (∃ c, a.startsRound c = true ∧ (m.cpu c).phase = .wfi ∧ t = m.setCpu c .newRound) ∨
      (∃ c, a.startsRound c = true ∧ m.Leaves t c) ∨ m.Quiet t := by
  cases machineStep_does h with
  | scan hscan => exact Or.inl ⟨_, rfl, hscan⟩
  | interrupt hphase =>
    exact Or.inr (Or.inl ⟨_, by simp [MachineLabel.startsRound], hphase, rfl⟩)
  | @leave _ c i p b hstart hi hcpu hstate _ hp _ =>
    refine Or.inr (Or.inr (Or.inl ⟨c, hstart, i, hi, by simpa [Machine.sched] using hp, ?_, ?_⟩))
    · intro j hj
      simp [Machine.sched, Machine.setProc_of_ne _ hj, hstate]
    · simp [Machine.sched, Machine.setCpu, hcpu]
  | @slot _ i p _ hslot hproc hcpu =>
    refine Or.inr (Or.inr (Or.inr ⟨i, ?_, fun j hj => ?_, hcpu⟩))
    · rw [hproc, Machine.setProc_self]
      exact hslot.running_iff
    · rw [hproc, Machine.setProc_of_ne _ hj]

/-! ## Who is running -/

/-- The RUNNING processes are the current ones, each on one CPU. -/
structure Machine.Current (m : Machine n) : Prop where
  running_iff : ∀ p, (m.proc p).state = .running ↔ ∃ c, (m.cpu c).proc = some p
  unique : ∀ c d p, (m.cpu c).proc = some p → (m.cpu d).proc = some p → c = d
  phase : ∀ c p, (m.cpu c).proc = some p → ∃ pass, (m.cpu c).phase = .dispatched p pass

theorem Machine.Current.boot : (Machine.boot n).Current where
  running_iff p := by
    simp only [Machine.boot, Cpu.newRound]
    split <;> simp [Proc.free]
  unique c d p h := by simp [Machine.boot, Cpu.newRound] at h
  phase c p h := by simp [Machine.boot, Cpu.newRound] at h

/-- Only a CPU that has dispatched has a current process. -/
theorem Machine.Current.proc_eq_none {m : Machine n} (h : m.Current) {c : Fin n}
    (hphase : ∀ p pass, (m.cpu c).phase ≠ .dispatched p pass) : (m.cpu c).proc = none := by
  cases hp : (m.cpu c).proc with
  | none => rfl
  | some p =>
    obtain ⟨pass, heq⟩ := h.phase c p hp
    exact absurd heq (hphase p pass)

/-- A CPU without a process goes on without one. -/
theorem Machine.Current.setCpu {m : Machine n} (h : m.Current) {c : Fin n} {x : Cpu}
    (hc : (m.cpu c).proc = none) (hx : x.proc = none) : (m.setCpu c x).Current := by
  have hsame : ∀ d, ((m.setCpu c x).cpu d).proc = (m.cpu d).proc := by
    intro d
    by_cases hd : d = c
    · subst hd
      rw [Machine.setCpu_self, hx, hc]
    · rw [Machine.setCpu_of_ne _ hd]
  refine ⟨fun p => ?_, fun d e p => ?_, fun d p hd => ?_⟩
  · simp only [hsame]
    exact h.running_iff p
  · simp only [hsame]
    exact h.unique d e p
  · have hne : d ≠ c := by
      rintro rfl
      simp [hx] at hd
    rw [Machine.setCpu_of_ne _ hne] at hd ⊢
    exact h.phase d p hd

theorem Machine.Current.dispatch {m : Machine n} (h : m.Current) {c : Fin n} {x : Cpu}
    {p : Fin nproc} {pass : Pass} (hp : (m.proc p).state = .runnable)
    (hc : (m.cpu c).proc = none) (hx : x.proc = some p) (hphase : x.phase = .dispatched p pass) :
    ((m.setProc p { m.proc p with state := .running, chan := 0 }).setCpu c x).Current := by
  -- no CPU has `p` yet
  have hnone : ∀ d, (m.cpu d).proc ≠ some p := by
    intro d hd
    have hrun := (h.running_iff p).mpr ⟨d, hd⟩
    rw [hp] at hrun
    cases hrun
  have hcpu : ∀ d, ((m.setProc p { m.proc p with state := .running, chan := 0 }).setCpu c x).cpu d =
      if d = c then x else m.cpu d := by
    intro d
    by_cases hd : d = c
    · subst hd
      simp
    · rw [Machine.setCpu_of_ne _ hd, if_neg hd]
      rfl
  refine ⟨fun q => ?_, fun d e q hd he => ?_, fun d q hd => ?_⟩
  · by_cases hq : q = p
    · subst hq
      simp only [Machine.setCpu_proc, Machine.setProc_self, true_iff]
      exact ⟨c, by rw [hcpu, if_pos rfl, hx]⟩
    · simp only [Machine.setCpu_proc, Machine.setProc_of_ne _ hq, h.running_iff q]
      refine exists_congr fun d => ?_
      rw [hcpu]
      by_cases hd : d = c
      · subst hd
        simp [hc, hx, Ne.symm hq]
      · rw [if_neg hd]
  · rw [hcpu] at hd he
    by_cases hdc : d = c <;> by_cases hec : e = c <;> simp only [hdc, hec, if_true, if_false] at *
    · exact absurd (hx.symm.trans hd ▸ he) (hnone e)
    · exact absurd (hx.symm.trans he ▸ hd) (hnone d)
    · exact h.unique d e q hd he
  · rw [hcpu] at hd ⊢
    by_cases hdc : d = c
    · rw [if_pos hdc] at hd ⊢
      obtain rfl := Option.some.inj (hx.symm.trans hd)
      exact ⟨pass, hphase⟩
    · rw [if_neg hdc] at hd ⊢
      exact h.phase d q hd

theorem Machine.Current.leaves {m t : Machine n} (h : m.Current) {c : Fin n}
    (ht : m.Leaves t c) : t.Current := by
  obtain ⟨i, hi, hstop, hother, hcpu⟩ := ht
  have hproc : ∀ d q, (t.cpu d).proc = some q ↔ d ≠ c ∧ (m.cpu d).proc = some q := by
    intro d q
    rw [hcpu]
    by_cases hd : d = c
    · subst hd
      simp [Cpu.newRound]
    · simp [Machine.setCpu_of_ne _ hd, hd]
  refine ⟨fun q => ?_, fun d e q hd he => ?_, fun d q hd => ?_⟩
  · simp only [hproc]
    by_cases hq : q = i
    · subst hq
      refine iff_of_false hstop ?_
      rintro ⟨d, hd, hdq⟩
      exact hd (h.unique d c q hdq hi)
    · rw [hother q hq, h.running_iff q]
      refine exists_congr fun d => ⟨fun hd => ⟨?_, hd⟩, fun hd => hd.2⟩
      rintro rfl
      exact hq (Option.some.inj (hd.symm.trans hi))
  · exact h.unique d e q ((hproc d q).mp hd).2 ((hproc e q).mp he).2
  · obtain ⟨hne, hq⟩ := (hproc d q).mp hd
    rw [hcpu, Machine.setCpu_of_ne _ hne]
    exact h.phase d q hq

theorem Machine.Current.quiet {m t : Machine n} (h : m.Current) (ht : m.Quiet t) : t.Current := by
  obtain ⟨i, hiff, hother, hcpu⟩ := ht
  refine ⟨fun q => ?_, hcpu ▸ h.unique, hcpu ▸ h.phase⟩
  rw [hcpu, ← h.running_iff q]
  by_cases hq : q = i
  · rw [hq, hiff]
  · rw [hother q hq]

theorem Machine.Current.step {m t : Machine n} (h : m.Current) {a : MachineLabel n}
    (hstep : machineStep m a = some t) : t.Current := by
  rcases machineStep_cases hstep with ⟨c, -, hscan⟩ | ⟨c, -, hwfi, rfl⟩ | ⟨c, -, hleave⟩ | hquiet
  · obtain ⟨hphase, ⟨p, pass, x, hp, hx, hxphase, rfl⟩ | ⟨x, hx, rfl⟩⟩ := Machine.scan_cases hscan
    · exact h.dispatch hp (h.proc_eq_none hphase) hx hxphase
    · exact h.setCpu (h.proc_eq_none hphase) hx
  · exact h.setCpu (h.proc_eq_none (by simp [hwfi])) rfl
  · exact h.leaves hleave
  · exact h.quiet hquiet

theorem Machine.Current.of_exec {m : Machine n} {acts : List (MachineLabel n)}
    (hrun : exec machineStep (.boot n) acts = some m) : m.Current :=
  exec_invariant (fun _ _ _ h hstep => h.step hstep) .boot hrun

/-- A process that is current after a CPU is set was so before, or it is the one set. -/
theorem Machine.proc_setCpu {m : Machine n} {c d : Fin n} {x : Cpu} {p : Fin nproc}
    (h : ((m.setCpu d x).cpu c).proc = some p) : x.proc = some p ∨ (m.cpu c).proc = some p := by
  by_cases hcd : c = d
  · subst hcd
    rw [Machine.setCpu_self] at h
    exact Or.inl h
  · rw [Machine.setCpu_of_ne _ hcd] at h
    exact Or.inr h

/-- A CPU gets a current process by its own scan steps only. -/
theorem Machine.scan_of_dispatch {m t : Machine n} {a : MachineLabel n}
    (hstep : machineStep m a = some t) {c : Fin n} {p : Fin nproc}
    (hbefore : (m.cpu c).proc ≠ some p) (hafter : (t.cpu c).proc = some p) :
    m.scan c = some t := by
  rcases machineStep_cases hstep with ⟨d, -, hscan⟩ | ⟨d, -, -, rfl⟩ | ⟨d, -, i, -, -, -, hcpu⟩ |
    ⟨i, -, -, hcpu⟩
  · by_cases hcd : c = d
    · exact hcd ▸ hscan
    · rw [Machine.scan_cpu_of_ne hscan hcd] at hafter
      exact absurd hafter hbefore
  · rcases Machine.proc_setCpu hafter with hnew | hold
    · cases hnew
    · exact absurd hold hbefore
  · rw [hcpu] at hafter
    rcases Machine.proc_setCpu hafter with hnew | hold
    · cases hnew
    · exact absurd hold hbefore
  · rw [hcpu] at hafter
    exact absurd hafter hbefore

/-- A dispatch makes a RUNNABLE process RUNNING. -/
theorem Machine.Current.dispatched {m t : Machine n} (h : m.Current) {a : MachineLabel n}
    (hstep : machineStep m a = some t) {c : Fin n} {p : Fin nproc}
    (hbefore : (m.cpu c).proc ≠ some p) (hafter : (t.cpu c).proc = some p) :
    (m.proc p).state = .runnable ∧ (t.proc p).state = .running := by
  refine ⟨?_, ((h.step hstep).running_iff p).mpr ⟨c, hafter⟩⟩
  obtain ⟨-, ⟨q, pass, x, hq, hx, -, rfl⟩ | ⟨x, hx, rfl⟩⟩ :=
    Machine.scan_cases (Machine.scan_of_dispatch hstep hbefore hafter)
  · rw [Machine.setCpu_self, hx] at hafter
    exact Option.some.inj hafter ▸ hq
  · rw [Machine.setCpu_self, hx] at hafter
    cases hafter

/-! ## Going idle -/

/-- What the locals of a round say about a process that has been RUNNABLE since its start. -/
def Awaited (j : Fin nproc) (anyRunnable : Bool) : Phase → Prop
  | .pass1 i => j < i → anyRunnable = true
  | .fallback i => i ≤ j
  | .pass2 _ | .dispatched _ _ => True
  | .wfi => False

theorem Awaited.scan {j : Fin nproc} {r t : Round} (h : Awaited j r.anyRunnable r.phase)
    (hj : (r.proc j).state = .runnable) (hstep : scanStep r = some t) :
    Awaited j t.anyRunnable t.phase := by
  have hlt := j.isLt
  obtain ⟨proc, anyRunnable, maxPrio, phase⟩ := r
  change (proc j).state = .runnable at hj
  cases phase with
  | pass1 i =>
    simp only [scanStep] at hstep
    simp only [Awaited] at h
    by_cases hi : i < nproc
    · rw [dif_pos hi] at hstep
      split at hstep <;> obtain rfl := Option.some.inj hstep
      · exact fun _ => rfl
      · next hmax =>
        intro (hle : (j : Nat) < i + 1)
        by_cases hij : (j : Nat) = i
        · obtain rfl : j = ⟨i, hi⟩ := Fin.ext hij
          simp only [hj, true_and, not_or, Bool.not_eq_false] at hmax
          exact hmax.1
        · exact h (by omega)
    · rw [dif_neg hi, if_pos (h (by omega))] at hstep
      obtain rfl := Option.some.inj hstep
      trivial
  | pass2 i =>
    simp only [scanStep] at hstep
    split at hstep
    · split at hstep <;> obtain rfl := Option.some.inj hstep <;> trivial
    · obtain rfl := Option.some.inj hstep
      exact Nat.zero_le _
  | fallback i =>
    simp only [scanStep] at hstep
    simp only [Awaited] at h
    by_cases hi : i < nproc
    · rw [dif_pos hi] at hstep
      split at hstep <;> obtain rfl := Option.some.inj hstep
      · trivial
      · next hidle =>
        refine Nat.lt_of_le_of_ne h fun hij => hidle ?_
        obtain rfl : j = ⟨i, hi⟩ := Fin.ext hij.symm
        exact hj
    · omega
  | dispatched p pass => simp [scanStep] at hstep
  | wfi => simp [scanStep] at hstep

/-- The locals of a CPU after its scan step are those of the round. -/
theorem Machine.scan_round {m t : Machine n} {c : Fin n} (h : m.scan c = some t) :
    ∃ r, scanStep (m.round c) = some r ∧ (t.cpu c).anyRunnable = r.anyRunnable ∧
      (t.cpu c).maxPrio = r.maxPrio ∧ (t.cpu c).phase = r.phase := by
  cases hr : scanStep (m.round c) with
  | none => simp [Machine.scan, hr] at h
  | some r =>
    obtain ⟨proc, anyRunnable, maxPrio, phase⟩ := r
    refine ⟨_, rfl, ?_⟩
    cases phase with
    | _ =>
      simp only [Machine.scan, hr, Option.some.injEq] at h
      subst h
      simp

/-- Only its own scan steps and the start of a round change the locals of a CPU. -/
theorem machineStep_cpu {m t : Machine n} {a : MachineLabel n} {c : Fin n}
    (hstep : machineStep m a = some t) (ha : a.startsRound c = false) :
    (a = .scan c ∧ m.scan c = some t) ∨ t.cpu c = m.cpu c := by
  have hne : ∀ d, a.startsRound d = true → c ≠ d := by
    rintro d hd rfl
    simp [ha] at hd
  rcases machineStep_cases hstep with ⟨d, rfl, hscan⟩ | ⟨d, hd, -, rfl⟩ |
    ⟨d, hd, i, -, -, -, hcpu⟩ | ⟨i, -, -, hcpu⟩
  · by_cases hcd : c = d
    · subst hcd
      exact Or.inl ⟨rfl, hscan⟩
    · exact Or.inr (Machine.scan_cpu_of_ne hscan hcd)
  · exact Or.inr (Machine.setCpu_of_ne _ (hne d hd) _)
  · rw [hcpu]
    exact Or.inr (Machine.setCpu_of_ne _ (hne d hd) _)
  · exact Or.inr (by rw [hcpu])

/-- `j` is RUNNABLE in every state in which a step of the list is taken. -/
def RunnableAlong (m : Machine n) (acts : List (MachineLabel n)) (j : Fin nproc) : Prop :=
  Along machineStep (fun s _ _ => (s.proc j).state = .runnable) m acts

instance (m : Machine n) (acts : List (MachineLabel n)) (j : Fin nproc) :
    Decidable (RunnableAlong m acts j) :=
  inferInstanceAs (Decidable (Along machineStep (fun s _ _ => (s.proc j).state = .runnable) m acts))

theorem Awaited.of_runnableAlong {m t : Machine n} {acts : List (MachineLabel n)} {c : Fin n}
    {j : Fin nproc} (hstart : (m.cpu c).phase = .pass1 0)
    (hround : ∀ a ∈ acts, a.startsRound c = false) (hrun : exec machineStep m acts = some t)
    (hj : RunnableAlong m acts j) : Awaited j (t.cpu c).anyRunnable (t.cpu c).phase := by
  refine exec_invariant_of_along (I := fun m : Machine n =>
    Awaited j (m.cpu c).anyRunnable (m.cpu c).phase) ?_ ?_ hrun hj
  · intro s a u ha hs hstep hjs
    rcases machineStep_cpu hstep (hround a ha) with ⟨-, hscan⟩ | hcpu
    · obtain ⟨r, hr, hany, -, hphase⟩ := Machine.scan_round hscan
      rw [hany, hphase]
      exact Awaited.scan hs hjs hr
    · rw [hcpu]
      exact hs
  · rw [hstart]
    exact fun hneg => absurd hneg (Nat.not_lt_zero _)

/-- In every run of the machine: every RUNNING process is current on exactly one CPU, every dispatch
makes a RUNNABLE process RUNNING, and a round that ends in `wfi` had no process that was RUNNABLE
all along. -/
theorem work_conserving {acts : List (MachineLabel n)} {m : Machine n}
    (hrun : exec machineStep (.boot n) acts = some m) :
    (∀ p, (m.proc p).state = .running → ∃! c, (m.cpu c).proc = some p) ∧
    (∀ a t c p, machineStep m a = some t → (m.cpu c).proc ≠ some p → (t.cpu c).proc = some p →
      (m.proc p).state = .runnable ∧ (t.proc p).state = .running) ∧
    ∀ c round t, (m.cpu c).phase = .pass1 0 → exec machineStep m round = some t →
      (∀ a ∈ round, a.startsRound c = false) → (t.cpu c).phase = .wfi →
      ∀ j, ¬ RunnableAlong m round j := by
  have hcurrent := Machine.Current.of_exec hrun
  refine ⟨fun p hp => ?_, fun a t c p hstep hbefore hafter => ?_, ?_⟩
  · obtain ⟨c, hc⟩ := (hcurrent.running_iff p).mp hp
    exact ⟨c, hc, fun d hd => hcurrent.unique d c p hd hc⟩
  · exact hcurrent.dispatched hstep hbefore hafter
  · intro c round t hstart hround hsame hwfi j hj
    have hawaited := Awaited.of_runnableAlong hstart hsame hround hj
    rw [hwfi] at hawaited
    exact hawaited

/-- Init is dispatched and sleeps, and the only CPU goes idle. -/
def idleRun : List (MachineLabel 1) :=
  List.replicate 66 (.scan ⟨0, Nat.one_pos⟩) ++ [.sleep ⟨0, Nat.one_pos⟩ 5]

theorem idleRun_work_conserving : ∃ m t, exec machineStep (.boot 1) idleRun = some m ∧
    exec machineStep m (List.replicate 65 (.scan 0)) = some t ∧ (t.cpu 0).phase = .wfi ∧
    ∀ j, ¬ RunnableAlong m (List.replicate 65 (.scan 0)) j := by
  have hends : (exec machineStep (.boot 1) idleRun).map (fun m => (m.cpu 0).phase) =
      some (.pass1 0) := by decide +kernel
  obtain ⟨m, hm, hstart⟩ := Option.map_eq_some_iff.mp hends
  have hidle : (exec machineStep (.boot 1) (idleRun ++ List.replicate 65 (.scan 0))).map
      (fun m => (m.cpu 0).phase) = some .wfi := by decide +kernel
  rw [exec_append, hm, Option.bind_some] at hidle
  obtain ⟨t, ht, hwfi⟩ := Option.map_eq_some_iff.mp hidle
  have hscans : ∀ a ∈ List.replicate 65 (MachineLabel.scan (0 : Fin 1)),
      a.startsRound 0 = false := by
    intro a ha
    rw [List.eq_of_mem_replicate ha]
    rfl
  exact ⟨m, t, hm, ht, hwfi, (work_conserving hm).2.2 0 _ t hstart ht hscans hwfi⟩

end

end LiberalOS.Kernel
