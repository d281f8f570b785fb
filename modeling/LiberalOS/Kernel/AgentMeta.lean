import Mathlib.Data.Vector.Basic
import LiberalOS.Kernel.ProxyLock
import LiberalOS.Kernel.Quota
import LiberalOS.Kernel.Strings
import LiberalOS.Kernel.UserMem

/-!
# Agent metadata in the process table

The five fields that `struct proc` of `kernel/proc.h` has for agents (role, priority, agent state,
memory quota and the count of denied requests), through the life of a slot: creation with its two
failing allocations, `fork`, `exec`, `exit`, `wait` and the system calls that set them.

## Main results

* `agentMeta_invariant` — the fields are in range in every slot and blank in every UNUSED one, and a
  child starts with the fields of its parent and nothing denied.
-/
namespace LiberalOS.Kernel
open Foundation

/-! ## Slots -/

/-- The fields of `struct proc` that are read or written here. -/
structure AgentProc where
  state : ProcState
  pid : Nat
  parent : Option (Fin nproc)
  agentRole : List.Vector UInt8 16
  priority : Int
  agentState : Int
  mem : ProcMem

structure AgentTable where
  proc : Fin nproc → AgentProc
  nextpid : Nat

/-- The role string of a slot. -/
def AgentProc.roleStr (p : AgentProc) : List UInt8 := cstr p.agentRole.toList

/-- No page table. -/
def AddressSpace.empty : AddressSpace := ⟨0, fun _ => none, Nat.zero_le _⟩

/-- `safestrcpy` into `agent_role`. -/
def setAgentRole (dst : List.Vector UInt8 16) (src : List UInt8) : List.Vector UInt8 16 :=
  ⟨safestrcpy dst.toList src 16, by simp⟩

/-- After `procinit`: the table is zero as in the BSS. -/
def AgentTable.procinit : AgentTable where
  proc _ := ⟨.unused, 0, none, .replicate _ 0, 0, 0, ⟨.empty, 0, 0⟩⟩
  nextpid := 1

def AgentTable.put (s : AgentTable) (i : Fin nproc) (p : AgentProc) : AgentTable :=
  { s with proc := Function.update s.proc i p }

/-- Only the first byte of the role is cleared. -/
def freeproc (p : AgentProc) : AgentProc where
  state := .unused
  pid := 0
  parent := none
  agentRole := p.agentRole.set 0 0
  priority := 0
  agentState := 0
  mem := ⟨.empty, 0, 0⟩

/-! ## Creation -/

/-- Which allocation of `allocproc` fails, if any. -/
inductive AllocOutcome where
  | ok | noTrapframe | noPagetable
  deriving DecidableEq

/-- The slot `allocproc` has found, with the defaults of the agent metadata. -/
def AgentProc.defaults (p : AgentProc) (pid : Nat) : AgentProc where
  state := .used
  pid := pid
  parent := p.parent
  agentRole := setAgentRole p.agentRole (CString.lit "none").bytes
  priority := 0
  agentState := 0
  mem := ⟨p.mem.vm, 0, 0⟩

/-- The new slot, if there is one and both allocations succeed. A pid is used up in any case. -/
def AgentTable.allocproc (s : AgentTable) (outcome : AllocOutcome) :
    Option (Fin nproc) × AgentTable :=
  match (List.finRange nproc).find? fun i => (s.proc i).state = .unused with
  | none => (none, s)
  | some i =>
    let p := (s.proc i).defaults s.nextpid
    let s := { s with nextpid := s.nextpid + 1 }
    match outcome with
    | .noTrapframe => (none, s.put i (freeproc p))
    | .noPagetable => (none, s.put i (freeproc p))
    | .ok => (some i, s.put i { p with mem := { p.mem with vm := .empty } })

/-- `kfork` by the process in slot `i`: the slot of the child, if there is one. -/
def AgentTable.kfork (s : AgentTable) (i : Fin nproc) (outcome : AllocOutcome) (env : AllocEnv) :
    Option (Fin nproc) × AgentTable :=
  let p := s.proc i
  match s.allocproc outcome with
  | (none, s) => (none, s)
  | (some j, s) =>
    let np := s.proc j
    match uvmcopy env p.mem.vm.pages p.mem.vm.sz with
    | none => (none, s.put j (freeproc np))
    | some pages =>
      (some j, s.put j { np with
        state := .runnable
        parent := some i
        agentRole := setAgentRole np.agentRole p.agentRole.toList
        priority := p.priority
        agentState := p.agentState
        mem := { np.mem with vm := { p.mem.vm with pages := pages }, memQuota := p.mem.memQuota } })

/-! ## System calls -/

/-- `sys_setrole`. `argstr` returns the length without the NUL, so that a role of one byte is
refused with the empty one. -/
def AgentProc.setrole (p : AgentProc) (a0 : Nat) : Int × AgentProc :=
  match fetchstr p.mem.vm a0 16 with
  | none => (-1, p)
  | some buf =>
    if buf.length ≤ 1 then (-1, p)
    else (0, { p with agentRole := setAgentRole p.agentRole buf.bytes })

/-- `sys_setprio` returns the previous priority. -/
def AgentProc.setprio (p : AgentProc) (a0 : Nat) : Int × AgentProc :=
  let prio := argint a0
  let prio := if prio < -20 then -20 else prio
  let prio := if prio > 19 then 19 else prio
  (p.priority, { p with priority := prio })

/-- Abandoned children go to init. -/
def AgentTable.reparent (s : AgentTable) (i : Fin nproc) : AgentTable :=
  { s with proc := fun j =>
      if (s.proc j).parent = some i then { s.proc j with parent := some initproc } else s.proc j }

/-- What happens next; `i` is the slot of the process that does it. User code may do anything to the
memory of its process, and the scheduler moves a process between its started states. -/
inductive AgentOp where
  | userinit (outcome : AllocOutcome)
  | fork (i : Fin nproc) (outcome : AllocOutcome) (env : AllocEnv)
  | exec (i : Fin nproc) (image : AddressSpace)
  | exit (i : Fin nproc)
  | wait (i j : Fin nproc)
  | setrole (i : Fin nproc) (a0 : Nat)
  | setprio (i : Fin nproc) (a0 : Nat)
  | setquota (i : Fin nproc) (a0 : Nat)
  | sbrk (i : Fin nproc) (env : AllocEnv) (a0 a1 : Nat)
  | user (i : Fin nproc) (vm : AddressSpace)
  | sched (i : Fin nproc) (state : ProcState)

/-- A change of its own slot by a started process. -/
def AgentTable.update (s : AgentTable) (i : Fin nproc) (f : AgentProc → Option AgentProc) :
    Option AgentTable :=
  if (s.proc i).state.started then (f (s.proc i)).map (s.put i) else none

def agentStep (s : AgentTable) : AgentOp → Option AgentTable
  | .userinit outcome =>
    if s.nextpid = 1 then
      match s.allocproc outcome with
      | (none, _) => none
      | (some i, s) => some (s.put i { s.proc i with state := .runnable })
    else none
  | .fork i outcome env =>
    if (s.proc i).state.started then some (s.kfork i outcome env).2 else none
  | .exec i image => s.update i fun p => some { p with mem := { p.mem with vm := image } }
  | .exit i =>
    if i = initproc then none
    else (s.reparent i).update i fun p => some { p with state := .zombie }
  | .wait i j =>
    if (s.proc j).parent = some i ∧ (s.proc j).state = .zombie then
      some (s.put j (freeproc (s.proc j)))
    else none
  | .setrole i a0 => s.update i fun p => some (p.setrole a0).2
  | .setprio i a0 => s.update i fun p => some (p.setprio a0).2
  | .setquota i a0 => s.update i fun p => some { p with mem := (sysSetquota p.mem a0).2 }
  | .sbrk i env a0 a1 => s.update i fun p =>
    (sysSbrk env p.mem a0 a1).map fun r => { p with mem := r.2 }
  | .user i vm => s.update i fun p => some { p with mem := { p.mem with vm := vm } }
  | .sched i state => s.update i fun p =>
    if state.started then some { p with state := state } else none

/-! ## The invariant -/

/-- What a slot without a process looks like. -/
structure AgentProc.Blank (p : AgentProc) : Prop where
  role : p.roleStr = []
  priority : p.priority = 0
  agentState : p.agentState = 0
  memQuota : p.mem.memQuota = 0
  quotaDenied : p.mem.quotaDenied = 0

/-- The agent metadata of a slot are in range, and blank if the slot is UNUSED. -/
structure AgentProc.Sound (p : AgentProc) : Prop where
  priority : -20 ≤ p.priority ∧ p.priority ≤ 19
  memQuota : 0 ≤ p.mem.memQuota
  role : (0 : UInt8) ∈ p.agentRole.toList
  blank : p.state = .unused → p.Blank

def AgentTable.Sound (s : AgentTable) : Prop := ∀ i, (s.proc i).Sound

theorem cstr_setAgentRole (dst : List.Vector UInt8 16) (src : List UInt8) :
    cstr (setAgentRole dst src).toList = (cstr src).take 15 :=
  @cstr_safestrcpy dst.toList 16 (by decide) (by simp) src

theorem zero_mem_setAgentRole (dst : List.Vector UInt8 16) (src : List UInt8) :
    (0 : UInt8) ∈ (setAgentRole dst src).toList := by
  refine zero_mem_of_cstr_lt ?_
  rw [cstr_setAgentRole, List.length_take, List.Vector.toList_length]
  omega

theorem sound_freeproc (p : AgentProc) : (freeproc p).Sound := by
  have hrole : (p.agentRole.set 0 0).toList = 0 :: p.agentRole.tail.toList := by
    obtain ⟨b, rest, hsplit⟩ := p.agentRole.exists_eq_cons
    rw [hsplit]
    rfl
  refine ⟨by simp [freeproc], by simp [freeproc], ?_, fun _ => ⟨?_, rfl, rfl, rfl, rfl⟩⟩
  · change (0 : UInt8) ∈ (p.agentRole.set 0 0).toList
    rw [hrole]
    exact List.mem_cons_self
  · change cstr (p.agentRole.set 0 0).toList = []
    rw [hrole]
    simp

theorem AgentTable.Sound.put {s : AgentTable} (h : s.Sound) {i : Fin nproc} {p : AgentProc}
    (hp : p.Sound) : (s.put i p).Sound := by
  intro j
  by_cases hj : j = i
  · subst hj
    simpa [AgentTable.put] using hp
  · simpa [AgentTable.put, Function.update_of_ne hj] using h j

/-- A new slot has the defaults; a failed allocation leaves it blank. -/
theorem AgentTable.Sound.allocproc {s : AgentTable} (h : s.Sound) (outcome : AllocOutcome) :
    (s.allocproc outcome).2.Sound := by
  have hpid : AgentTable.Sound { s with nextpid := s.nextpid + 1 } := h
  unfold AgentTable.allocproc
  split
  · exact h
  · cases outcome with
    | noTrapframe => exact hpid.put (sound_freeproc _)
    | noPagetable => exact hpid.put (sound_freeproc _)
    | ok =>
      refine hpid.put ⟨by simp [AgentProc.defaults], by simp [AgentProc.defaults],
        zero_mem_setAgentRole _ _, fun hused => by simp [AgentProc.defaults] at hused⟩

theorem AgentTable.Sound.kfork {s : AgentTable} (h : s.Sound) (i : Fin nproc)
    (outcome : AllocOutcome) (env : AllocEnv) : (s.kfork i outcome env).2.Sound := by
  have halloc := h.allocproc outcome
  unfold AgentTable.kfork
  dsimp only
  split
  · next hnone =>
    rw [hnone] at halloc
    exact halloc
  · next j t hsome =>
    rw [hsome] at halloc
    split
    · exact halloc.put (sound_freeproc _)
    · exact halloc.put ⟨(h i).priority, (h i).memQuota, zero_mem_setAgentRole _ _,
        fun hused => by simp at hused⟩

/-- A started process that keeps its fields in range. -/
theorem AgentTable.Sound.update {s t : AgentTable} (h : s.Sound) {i : Fin nproc}
    {f : AgentProc → Option AgentProc} (hstep : s.update i f = some t)
    (hf : ∀ p q, p.Sound → p.state.started = true → f p = some q → q.Sound) : t.Sound := by
  simp only [AgentTable.update, Option.ite_none_right_eq_some, Option.map_eq_some_iff] at hstep
  obtain ⟨hstarted, q, hq, rfl⟩ := hstep
  exact h.put (hf _ _ (h i) hstarted hq)

theorem not_unused_of_started {st : ProcState} (h : st.started = true) : st ≠ .unused := by
  rintro rfl
  cases h

/-- A started process may change its memory and lower its state. -/
theorem AgentProc.Sound.with_mem {p : AgentProc} (h : p.Sound) (hstarted : p.state.started = true)
    {mem : ProcMem} (hquota : 0 ≤ mem.memQuota) : AgentProc.Sound { p with mem := mem } :=
  ⟨h.priority, hquota, h.role, fun hunused => absurd hunused (not_unused_of_started hstarted)⟩

theorem AgentProc.Sound.with_state {p : AgentProc} (h : p.Sound) {state : ProcState}
    (hstate : state ≠ .unused) : AgentProc.Sound { p with state := state } :=
  ⟨h.priority, h.memQuota, h.role, fun hunused => absurd hunused hstate⟩

theorem AgentProc.Sound.setrole {p : AgentProc} (h : p.Sound) (hstarted : p.state.started = true)
    (a0 : Nat) : (p.setrole a0).2.Sound := by
  unfold AgentProc.setrole
  split
  · exact h
  split
  · exact h
  · exact ⟨h.priority, h.memQuota, zero_mem_setAgentRole _ _,
      fun hunused => absurd hunused (not_unused_of_started hstarted)⟩

theorem clamp_range (prio : Int) :
    -20 ≤ (if (if prio < -20 then -20 else prio) > 19 then 19
        else if prio < -20 then -20 else prio) ∧
      (if (if prio < -20 then -20 else prio) > 19 then 19
        else if prio < -20 then -20 else prio) ≤ 19 := by
  split <;> split <;> omega

theorem AgentProc.Sound.setprio {p : AgentProc} (h : p.Sound) (hstarted : p.state.started = true)
    (a0 : Nat) : (p.setprio a0).2.Sound := by
  obtain ⟨prio, hset, hprio⟩ : ∃ prio, (p.setprio a0).2 = { p with priority := prio } ∧
      (-20 ≤ prio ∧ prio ≤ 19) := by
    unfold AgentProc.setprio
    dsimp only
    exact ⟨_, rfl, clamp_range _⟩
  rw [hset]
  exact ⟨hprio, h.memQuota, h.role, fun hunused => absurd hunused (not_unused_of_started hstarted)⟩

theorem clamp_nonneg (pages : Int) : 0 ≤ if pages < 0 then 0 else pages := by
  split <;> omega

theorem sysSetquota_nonneg (p : ProcMem) (a0 : Nat) : 0 ≤ (sysSetquota p a0).2.memQuota := by
  unfold sysSetquota
  dsimp only
  exact clamp_nonneg _

theorem AgentTable.Sound.reparent {s : AgentTable} (h : s.Sound) (i : Fin nproc) :
    (s.reparent i).Sound := by
  intro j
  simp only [AgentTable.reparent]
  split
  · exact ⟨(h j).priority, (h j).memQuota, (h j).role, fun hunused =>
      ⟨((h j).blank hunused).role, ((h j).blank hunused).priority, ((h j).blank hunused).agentState,
        ((h j).blank hunused).memQuota, ((h j).blank hunused).quotaDenied⟩⟩
  · exact h j

theorem AgentTable.Sound.step {s t : AgentTable} (h : s.Sound) {op : AgentOp}
    (hstep : agentStep s op = some t) : t.Sound := by
  cases op with
  | userinit outcome =>
    simp only [agentStep, Option.ite_none_right_eq_some] at hstep
    obtain ⟨-, hstep⟩ := hstep
    have halloc := h.allocproc outcome
    split at hstep
    · cases hstep
    · next i u hsome =>
      rw [hsome] at halloc
      obtain rfl := Option.some.inj hstep
      exact halloc.put ((halloc i).with_state (by simp))
  | fork i outcome env =>
    simp only [agentStep, Option.ite_none_right_eq_some, Option.some.injEq] at hstep
    obtain ⟨-, rfl⟩ := hstep
    exact h.kfork i outcome env
  | exec i image =>
    simp only [agentStep] at hstep
    refine h.update hstep fun p q hp hstarted hq => ?_
    obtain rfl := Option.some.inj hq
    exact hp.with_mem hstarted hp.memQuota
  | exit i =>
    simp only [agentStep] at hstep
    split at hstep
    · cases hstep
    · refine (h.reparent i).update hstep fun p q hp _ hq => ?_
      obtain rfl := Option.some.inj hq
      exact hp.with_state (by simp)
  | wait i j =>
    simp only [agentStep, Option.ite_none_right_eq_some, Option.some.injEq] at hstep
    obtain ⟨-, rfl⟩ := hstep
    exact h.put (sound_freeproc _)
  | setrole i a0 =>
    simp only [agentStep] at hstep
    refine h.update hstep fun p q hp hstarted hq => ?_
    obtain rfl := Option.some.inj hq
    exact hp.setrole hstarted a0
  | setprio i a0 =>
    simp only [agentStep] at hstep
    refine h.update hstep fun p q hp hstarted hq => ?_
    obtain rfl := Option.some.inj hq
    exact hp.setprio hstarted a0
  | setquota i a0 =>
    simp only [agentStep] at hstep
    refine h.update hstep fun p q hp hstarted hq => ?_
    obtain rfl := Option.some.inj hq
    exact hp.with_mem hstarted (sysSetquota_nonneg p.mem a0)
  | sbrk i env a0 a1 =>
    simp only [agentStep] at hstep
    refine h.update hstep fun p q hp hstarted hq => ?_
    obtain ⟨r, hr, rfl⟩ := Option.map_eq_some_iff.mp hq
    have hquota : r.2.memQuota = p.mem.memQuota := (sysSbrk_cases hr).1
    exact hp.with_mem hstarted (hquota ▸ hp.memQuota)
  | user i vm =>
    simp only [agentStep] at hstep
    refine h.update hstep fun p q hp hstarted hq => ?_
    obtain rfl := Option.some.inj hq
    exact hp.with_mem hstarted hp.memQuota
  | sched i state =>
    simp only [agentStep] at hstep
    refine h.update hstep fun p q hp _ hq => ?_
    simp only [Option.ite_none_right_eq_some, Option.some.injEq] at hq
    obtain ⟨hstate, rfl⟩ := hq
    exact hp.with_state (not_unused_of_started hstate)

theorem AgentTable.sound_procinit : AgentTable.procinit.Sound := by
  intro i
  refine ⟨by simp [AgentTable.procinit], by simp [AgentTable.procinit], ?_, fun _ =>
    ⟨?_, rfl, rfl, rfl, rfl⟩⟩
  · change (0 : UInt8) ∈ List.replicate 16 0
    simp
  · change cstr (List.replicate 16 0) = []
    decide

/-! ## What a child inherits -/

/-- A child starts with the agent metadata of its parent. -/
structure AgentProc.Inherits (np p : AgentProc) : Prop where
  role : np.roleStr = p.roleStr
  priority : np.priority = p.priority
  agentState : np.agentState = p.agentState
  memQuota : np.mem.memQuota = p.mem.memQuota
  quotaDenied : np.mem.quotaDenied = 0

/-- A slot that is found has nothing denied yet. -/
theorem allocproc_quotaDenied {s t : AgentTable} {outcome : AllocOutcome} {j : Fin nproc}
    (h : s.allocproc outcome = (some j, t)) : (t.proc j).mem.quotaDenied = 0 := by
  unfold AgentTable.allocproc at h
  split at h
  · simp at h
  · cases outcome with
    | noTrapframe => simp at h
    | noPagetable => simp at h
    | ok =>
      obtain ⟨hj, rfl⟩ := Prod.mk.inj h
      obtain rfl := Option.some.inj hj
      simp [AgentTable.put, AgentProc.defaults]

theorem AgentTable.Sound.inherits {s t : AgentTable} (h : s.Sound) {i j : Fin nproc}
    {outcome : AllocOutcome} {env : AllocEnv} (hfork : s.kfork i outcome env = (some j, t)) :
    (t.proc j).Inherits (s.proc i) := by
  unfold AgentTable.kfork at hfork
  dsimp only at hfork
  split at hfork
  · simp at hfork
  · next k u halloc =>
    split at hfork
    · simp at hfork
    · obtain ⟨hj, rfl⟩ := Prod.mk.inj hfork
      obtain rfl := Option.some.inj hj
      have hdenied := allocproc_quotaDenied halloc
      have hlen := cstr_length_lt_of_zero_mem (h i).role
      rw [List.Vector.toList_length] at hlen
      refine ⟨?_, by simp [AgentTable.put], by simp [AgentTable.put], by simp [AgentTable.put],
        by simpa [AgentTable.put] using hdenied⟩
      simp only [AgentProc.roleStr, AgentTable.put, Function.update_self, cstr_setAgentRole]
      exact List.take_of_length_le (by omega)

/-- In every state of every run: the agent metadata of all slots are in range and blank where the
slot is UNUSED, and a child that `fork` returns starts with the metadata of its parent. -/
theorem agentMeta_invariant {ops : List AgentOp} {s : AgentTable}
    (hrun : exec agentStep .procinit ops = some s) :
    (∀ i, (-20 ≤ (s.proc i).priority ∧ (s.proc i).priority ≤ 19) ∧ 0 ≤ (s.proc i).mem.memQuota ∧
      (0 : UInt8) ∈ (s.proc i).agentRole.toList ∧
      ((s.proc i).state = .unused → (s.proc i).Blank)) ∧
    ∀ i j outcome env t, (s.proc i).state.started = true →
      s.kfork i outcome env = (some j, t) → (t.proc j).Inherits (s.proc i) := by
  have hsound : s.Sound :=
    exec_invariant (fun _ _ _ h hstep => h.step hstep) AgentTable.sound_procinit hrun
  refine ⟨fun i => ?_, ?_⟩
  · exact ⟨(hsound i).priority, (hsound i).memQuota, (hsound i).role, (hsound i).blank⟩
  intro i j outcome env t _ hfork
  exact hsound.inherits hfork

/-- Init sets its priority and its quota before it forks. -/
def configuredInit : List AgentOp := [.userinit .ok, .setprio 0 7, .setquota 0 8]

theorem configuredInit_agentMeta : ∃ s t, exec agentStep .procinit configuredInit = some s ∧
    s.kfork 0 .ok .free = (some 1, t) ∧ (t.proc 1).Inherits (s.proc 0) := by
  have heval : (exec agentStep .procinit configuredInit).map
      (fun s => ((s.proc 0).state.started, (s.kfork 0 .ok .free).1)) = some (true, some 1) := by
    decide +kernel
  obtain ⟨s, hs, hfork⟩ := Option.map_eq_some_iff.mp heval
  obtain ⟨hstarted, hchild⟩ := Prod.mk.inj hfork
  have hkfork : s.kfork 0 .ok .free = (some 1, (s.kfork 0 .ok .free).2) := Prod.ext hchild rfl
  exact ⟨s, _, hs, hkfork, (agentMeta_invariant hs).2 0 1 .ok _ _ hstarted hkfork⟩

end LiberalOS.Kernel
