import LiberalOS.Foundation.Json
import LiberalOS.Kernel.AgentMeta

/-!
# Names and roles in the process table

The field `name` of `struct proc` beside the agent metadata, and where the two strings of a slot
come from: the last component of the path that was executed, the argument of `setrole`, the parent
of the process, or nothing.

## Main results

* `role_origin`, `name_origin` — what a step may leave in the two fields.
-/
namespace LiberalOS.Kernel
open Foundation

/-- The process table with the `name` of every slot. -/
structure NamedTable where
  table : AgentTable
  name : Fin nproc → List.Vector UInt8 16

/-- The name of a slot as a string. -/
def NamedTable.nameStr (s : NamedTable) (i : Fin nproc) : List UInt8 := cstr (s.name i).toList

def NamedTable.roleStr (s : NamedTable) (i : Fin nproc) : List UInt8 := (s.table.proc i).roleStr

/-- The slots with a process. -/
def NamedTable.Live (s : NamedTable) (i : Fin nproc) : Prop := (s.table.proc i).state ≠ .unused

instance (s : NamedTable) (i : Fin nproc) : Decidable (s.Live i) :=
  inferInstanceAs (Decidable (_ ≠ _))

def NamedTable.procinit : NamedTable := ⟨.procinit, fun _ => .replicate _ 0⟩

/-- The loop of `kexec` over the path: what is behind the last slash. -/
def lastLoop : List UInt8 → List UInt8 → List UInt8
  | last, [] => last
  | last, c :: s => lastLoop (if c = 47 then s else last) s

def lastComponent (path : CString) : List UInt8 := lastLoop path.bytes path.bytes

theorem length_saveName (dst : List.Vector UInt8 16) (src : List UInt8) :
    (safestrcpy dst.toList src 16).length = 16 :=
  (length_safestrcpy _ _ _).trans dst.toList_length

/-- `safestrcpy` into `name`. -/
def saveName (dst : List.Vector UInt8 16) (src : List UInt8) : List.Vector UInt8 16 :=
  ⟨safestrcpy dst.toList src 16, length_saveName dst src⟩

/-- `freeproc` clears the first byte of the name. -/
def clearName (name : List.Vector UInt8 16) : List.Vector UInt8 16 := name.tail.cons 0

/-- An operation with the path of the program, which counts only if it is an `exec`. -/
structure NamedOp where
  op : AgentOp
  path : CString

/-- The names after an operation. A `fork` that fails with a slot has freed it. -/
def NamedTable.names (s : NamedTable) (a : NamedOp) : Fin nproc → List.Vector UInt8 16 :=
  match a.op with
  | .exec i _ => Function.update s.name i (saveName (s.name i) (lastComponent a.path))
  | .fork i outcome env =>
    ((List.finRange nproc).find? fun j => (s.table.proc j).state = .unused).elim s.name fun j =>
      Function.update s.name j <|
        if (s.table.kfork i outcome env).1.isSome then saveName (s.name j) (s.name i).toList
        else clearName (s.name j)
  | .wait _ j => Function.update s.name j (clearName (s.name j))
  | _ => s.name

def namedStep (s : NamedTable) (a : NamedOp) : Option NamedTable :=
  (agentStep s.table a.op).map fun t => ⟨t, s.names a⟩

/-! ## Where a role comes from -/

/-- The roles a step may leave in a slot. -/
inductive RoleOrigin (s : AgentTable) (op : AgentOp) : List UInt8 → Prop where
  | cleared : RoleOrigin s op []
  | default : RoleOrigin s op (CString.lit "none").bytes
  | kept (l : Fin nproc) : RoleOrigin s op (s.proc l).roleStr
  | setrole {i : Fin nproc} {a0 : Nat} {buf : CString} (hop : op = .setrole i a0)
    (hfetch : fetchstr (s.proc i).mem.vm a0 16 = some buf) (hlen : ¬ buf.length ≤ 1) :
    RoleOrigin s op buf.bytes

theorem cstr_setAgentRole_of_short (dst : List.Vector UInt8 16) {src : List UInt8}
    (h : (cstr src).length ≤ 15) : cstr (setAgentRole dst src).toList = cstr src := by
  rw [cstr_setAgentRole, List.take_of_length_le h]

theorem length_roleStr_le {p : AgentProc} (h : p.Sound) : p.roleStr.length ≤ 15 := by
  have hlen := cstr_length_lt_of_zero_mem h.role
  rw [List.Vector.toList_length] at hlen
  exact Nat.le_of_lt_succ hlen

theorem RoleOrigin.put {s t : AgentTable} {op : AgentOp}
    (h : ∀ k, RoleOrigin s op (t.proc k).roleStr) {i : Fin nproc} {p : AgentProc}
    (hp : RoleOrigin s op p.roleStr) (k : Fin nproc) :
    RoleOrigin s op ((t.put i p).proc k).roleStr := by
  by_cases hk : k = i
  · subst hk
    simpa [AgentTable.put] using hp
  · simpa [AgentTable.put, Function.update_of_ne hk] using h k

theorem RoleOrigin.freeproc {s : AgentTable} {op : AgentOp} (p : AgentProc) :
    RoleOrigin s op (freeproc p).roleStr := by
  have hrole : (Kernel.freeproc p).roleStr = [] := ((sound_freeproc p).blank rfl).role
  exact hrole ▸ .cleared

theorem roleStr_defaults (p : AgentProc) (pid : Nat) :
    (p.defaults pid).roleStr = (CString.lit "none").bytes := by
  have hrole := cstr_setAgentRole p.agentRole (CString.lit "none").bytes
  rw [CString.cstr_bytes] at hrole
  exact hrole.trans (by decide)

theorem RoleOrigin.allocproc {s t : AgentTable} {op : AgentOp} {outcome : AllocOutcome}
    {j : Option (Fin nproc)} (h : s.allocproc outcome = (j, t)) (k : Fin nproc) :
    RoleOrigin s op (t.proc k).roleStr := by
  have hkept (n : Nat) (k) : RoleOrigin s op (AgentProc.roleStr
      (AgentTable.proc { s with nextpid := n } k)) := .kept k
  unfold AgentTable.allocproc at h
  split at h
  · obtain ⟨-, rfl⟩ := Prod.mk.inj h
    exact .kept k
  · cases outcome with
    | noTrapframe | noPagetable =>
      obtain ⟨-, rfl⟩ := Prod.mk.inj h
      exact .put (hkept _) (.freeproc _) k
    | ok =>
      obtain ⟨-, rfl⟩ := Prod.mk.inj h
      refine .put (hkept _) ?_ k
      change RoleOrigin s op (AgentProc.defaults _ s.nextpid).roleStr
      rw [roleStr_defaults]
      exact .default

theorem RoleOrigin.kfork {s t : AgentTable} (hs : s.Sound) {op : AgentOp} {i : Fin nproc}
    {outcome : AllocOutcome} {env : AllocEnv} {j : Option (Fin nproc)}
    (h : s.kfork i outcome env = (j, t)) (k : Fin nproc) : RoleOrigin s op (t.proc k).roleStr := by
  unfold AgentTable.kfork at h
  dsimp only at h
  split at h
  · next halloc =>
    obtain ⟨-, rfl⟩ := Prod.mk.inj h
    exact .allocproc halloc k
  · next halloc =>
    split at h
    · obtain ⟨-, rfl⟩ := Prod.mk.inj h
      exact .put (.allocproc halloc) (.freeproc _) k
    · obtain ⟨-, rfl⟩ := Prod.mk.inj h
      refine .put (.allocproc halloc) ?_ k
      change RoleOrigin s op (cstr (setAgentRole _ (s.proc i).agentRole.toList).toList)
      rw [cstr_setAgentRole_of_short _ (length_roleStr_le (hs i))]
      exact .kept i

/-- A started process that keeps its role. -/
theorem RoleOrigin.update {s u t : AgentTable} {op : AgentOp} {i : Fin nproc}
    {f : AgentProc → Option AgentProc} (h : u.update i f = some t)
    (hu : ∀ k, RoleOrigin s op (u.proc k).roleStr)
    (hf : ∀ p, f (u.proc i) = some p → p.agentRole = (u.proc i).agentRole) (k : Fin nproc) :
    RoleOrigin s op (t.proc k).roleStr := by
  simp only [AgentTable.update, Option.ite_none_right_eq_some, Option.map_eq_some_iff] at h
  obtain ⟨-, p, hp, rfl⟩ := h
  refine .put hu ?_ k
  rw [AgentProc.roleStr, hf p hp]
  exact hu i

/-- The role that an accepted `setrole` leaves. -/
theorem roleStr_setrole {p : AgentProc} {a0 : Nat} {buf : CString}
    (hfetch : fetchstr p.mem.vm a0 16 = some buf) (hlen : ¬ buf.length ≤ 1) :
    (p.setrole a0).2.roleStr = buf.bytes := by
  have hshort : (cstr buf.bytes).length ≤ 15 := by
    rw [buf.cstr_bytes]
    exact Nat.le_of_lt_succ (fetchstr_eq_some_iff.mp hfetch).2
  simp only [AgentProc.setrole, hfetch, if_neg hlen]
  change cstr (setAgentRole p.agentRole buf.bytes).toList = buf.bytes
  rw [cstr_setAgentRole_of_short _ hshort, buf.cstr_bytes]

theorem state_setrole (p : AgentProc) (a0 : Nat) : (p.setrole a0).2.state = p.state := by
  unfold AgentProc.setrole
  split
  · rfl
  · split <;> rfl

theorem RoleOrigin.ofSetrole (s : AgentTable) (i : Fin nproc) (a0 : Nat) :
    RoleOrigin s (.setrole i a0) ((s.proc i).setrole a0).2.roleStr := by
  cases hfetch : fetchstr (s.proc i).mem.vm a0 16 with
  | none =>
    simp only [AgentProc.setrole, hfetch]
    exact .kept i
  | some buf =>
    by_cases hlen : buf.length ≤ 1
    · simp only [AgentProc.setrole, hfetch, if_pos hlen]
      exact .kept i
    · rw [roleStr_setrole hfetch hlen]
      exact .setrole rfl hfetch hlen

/-- Every role after a step is a role before it, the argument of a `setrole` that was accepted, the
default or empty. -/
theorem role_origin {s t : AgentTable} (hs : s.Sound) {op : AgentOp} (h : agentStep s op = some t)
    (k : Fin nproc) : RoleOrigin s op (t.proc k).roleStr := by
  have hkept : ∀ l, RoleOrigin s op (s.proc l).roleStr := .kept
  cases op with
  | userinit outcome =>
    simp only [agentStep, Option.ite_none_right_eq_some] at h
    obtain ⟨-, h⟩ := h
    split at h
    · cases h
    · next halloc =>
      obtain rfl := Option.some.inj h
      refine .put (.allocproc halloc) ?_ k
      exact RoleOrigin.allocproc halloc _
  | fork i outcome env =>
    simp only [agentStep, Option.ite_none_right_eq_some, Option.some.injEq] at h
    obtain ⟨-, rfl⟩ := h
    exact .kfork hs rfl k
  | setrole i a0 =>
    simp only [agentStep, AgentTable.update, Option.ite_none_right_eq_some,
      Option.map_eq_some_iff] at h
    obtain ⟨-, p, hp, rfl⟩ := h
    obtain rfl := Option.some.inj hp
    exact .put hkept (.ofSetrole s i a0) k
  | wait i j =>
    simp only [agentStep, Option.ite_none_right_eq_some, Option.some.injEq] at h
    obtain ⟨-, rfl⟩ := h
    exact .put hkept (.freeproc _) k
  | exit i =>
    simp only [agentStep] at h
    split at h
    · cases h
    · refine .update h (fun l => ?_) (fun p hp => ?_) k
      · have hrole : ((s.reparent i).proc l).roleStr = (s.proc l).roleStr := by
          simp only [AgentTable.reparent]
          split <;> rfl
        exact hrole ▸ .kept l
      · obtain rfl := Option.some.inj hp
        rfl
  | exec i image | setquota i a0 | user i vm =>
    simp only [agentStep] at h
    refine .update h hkept (fun p hp => ?_) k
    obtain rfl := Option.some.inj hp
    rfl
  | setprio i a0 =>
    simp only [agentStep] at h
    refine .update h hkept (fun p hp => ?_) k
    simp only [AgentProc.setprio, Option.some.injEq] at hp
    rw [← hp]
  | sbrk i env a0 a1 =>
    simp only [agentStep] at h
    refine .update h hkept (fun p hp => ?_) k
    obtain ⟨_, -, rfl⟩ := Option.map_eq_some_iff.mp hp
    rfl
  | sched i state =>
    simp only [agentStep] at h
    refine .update h hkept (fun p hp => ?_) k
    obtain ⟨-, hp⟩ := Option.ite_none_right_eq_some.mp hp
    obtain rfl := Option.some.inj hp
    rfl

/-! ## Where a name comes from -/

/-- The names a step may leave in a slot. -/
inductive NameOrigin (s : NamedTable) (a : NamedOp) : List UInt8 → Prop where
  | cleared : NameOrigin s a []
  | kept (l : Fin nproc) : NameOrigin s a (s.nameStr l)
  | exec {i : Fin nproc} {image : AddressSpace} (hop : a.op = .exec i image) :
    NameOrigin s a ((lastComponent a.path).take 15)

theorem lastLoop_suffix {last s : List UInt8} (h : s <:+ last) : lastLoop last s <:+ last := by
  induction s generalizing last with
  | nil => exact List.suffix_rfl
  | cons c s ih =>
    have htail : s <:+ last := (List.suffix_cons c s).trans h
    rw [lastLoop]
    split
    · exact (ih List.suffix_rfl).trans htail
    · exact ih htail

theorem cstr_lastComponent (path : CString) : cstr (lastComponent path) = lastComponent path :=
  cstr_eq_self fun h => path.nul_free ((lastLoop_suffix List.suffix_rfl).subset h)

theorem cstr_saveName (dst : List.Vector UInt8 16) (src : List UInt8) :
    cstr (saveName dst src).toList = (cstr src).take 15 := cstr_setAgentRole dst src

theorem zero_mem_saveName (dst : List.Vector UInt8 16) (src : List UInt8) :
    (0 : UInt8) ∈ (saveName dst src).toList := zero_mem_setAgentRole dst src

/-- A terminated name that a step may leave. -/
def NameFrom (s : NamedTable) (a : NamedOp) (v : List.Vector UInt8 16) : Prop :=
  (0 : UInt8) ∈ v.toList ∧ NameOrigin s a (cstr v.toList)

theorem NameFrom.update {s : NamedTable} {a : NamedOp} (h : ∀ k, NameFrom s a (s.name k))
    {i : Fin nproc} {v : List.Vector UInt8 16} (hv : NameFrom s a v) (k : Fin nproc) :
    NameFrom s a (Function.update s.name i v k) := by
  by_cases hk : k = i
  · subst hk
    simpa using hv
  · simpa [Function.update_of_ne hk] using h k

theorem NameFrom.cleared {s : NamedTable} {a : NamedOp} (v : List.Vector UInt8 16) :
    NameFrom s a (clearName v) := by
  have hlist : (clearName v).toList = 0 :: v.tail.toList := rfl
  rw [NameFrom, hlist]
  exact ⟨List.mem_cons_self, .cleared⟩

/-- Every name after a step is a name before it, the last component of the path of an `exec`, or
empty, and it is terminated. -/
theorem name_origin {s : NamedTable} (hs : ∀ i, (0 : UInt8) ∈ (s.name i).toList) (a : NamedOp)
    (k : Fin nproc) : NameFrom s a (s.names a k) := by
  have hkept (l) : NameFrom s a (s.name l) := ⟨hs l, .kept l⟩
  obtain ⟨op, path⟩ := a
  cases op with
  | fork i outcome env =>
    cases hslot : (List.finRange nproc).find? fun j => (s.table.proc j).state = .unused with
    | none =>
      simp only [NamedTable.names, hslot, Option.elim]
      exact hkept k
    | some j =>
      simp only [NamedTable.names, hslot, Option.elim]
      refine NameFrom.update hkept ?_ k
      split
      · have hlen := cstr_length_lt_of_zero_mem (hs i)
        rw [List.Vector.toList_length] at hlen
        refine ⟨zero_mem_saveName _ _, ?_⟩
        rw [cstr_saveName, List.take_of_length_le (Nat.le_of_lt_succ hlen)]
        exact .kept i
      · exact .cleared _
  | exec i image =>
    refine NameFrom.update hkept ⟨zero_mem_saveName _ _, ?_⟩ k
    rw [cstr_saveName, cstr_lastComponent]
    exact .exec rfl
  | wait i j => exact NameFrom.update hkept (.cleared _) k
  | _ => exact hkept k

/-! ## Clean names and roles -/

/-- The name and the role of a slot are clean. -/
def NamedTable.CleanSlot (s : NamedTable) (i : Fin nproc) : Prop :=
  Clean (s.nameStr i) ∧ Clean (s.roleStr i)

/-- All names and roles are clean. -/
structure NamedTable.Tidy (s : NamedTable) : Prop where
  sound : s.table.Sound
  terminated : ∀ i, (0 : UInt8) ∈ (s.name i).toList
  cleanSlot : ∀ i, s.CleanSlot i

/-- A `setrole` that is accepted has a clean argument, and the name that an `exec` leaves is
clean. -/
def CleanStep (s : NamedTable) (a : NamedOp) : Prop :=
  match a.op with
  | .setrole i a0 => ∀ buf, fetchstr (s.table.proc i).mem.vm a0 16 = some buf → 2 ≤ buf.length →
    Clean buf.bytes
  | .exec _ _ => Clean ((lastComponent a.path).take 15)
  | _ => True

theorem clean_nil : Clean [] := ⟨⟨[], rfl⟩, List.forall_mem_nil _⟩

theorem NamedTable.tidy_procinit : NamedTable.procinit.Tidy := by
  have hempty : cstr (List.Vector.replicate 16 (0 : UInt8)).toList = [] := by decide
  have hclean : Clean (cstr (List.Vector.replicate 16 (0 : UInt8)).toList) := hempty ▸ clean_nil
  exact ⟨AgentTable.sound_procinit, fun _ => List.mem_cons_self, fun _ => ⟨hclean, hclean⟩⟩

theorem RoleOrigin.clean {s : NamedTable} {a : NamedOp} {r : List UInt8}
    (h : RoleOrigin s.table a.op r) (hs : s.Tidy) (hclean : CleanStep s a) : Clean r := by
  cases h with
  | cleared => exact clean_nil
  | default => exact clean_of_all (by decide)
  | kept l => exact (hs.cleanSlot l).2
  | setrole hop hfetch hlen =>
    rw [CleanStep, hop] at hclean
    exact hclean _ hfetch (by omega)

theorem NameOrigin.clean {s : NamedTable} {a : NamedOp} {r : List UInt8} (h : NameOrigin s a r)
    (hs : s.Tidy) (hclean : CleanStep s a) : Clean r := by
  cases h with
  | cleared => exact clean_nil
  | kept l => exact (hs.cleanSlot l).1
  | exec hop =>
    rw [CleanStep, hop] at hclean
    exact hclean

theorem NamedTable.Tidy.step {s t : NamedTable} (hs : s.Tidy) {a : NamedOp}
    (h : namedStep s a = some t) (hclean : CleanStep s a) : t.Tidy := by
  obtain ⟨u, hstep, rfl⟩ := Option.map_eq_some_iff.mp h
  have hname := name_origin hs.terminated a
  exact ⟨hs.sound.step hstep, fun i => (hname i).1, fun i =>
    ⟨(hname i).2.clean hs hclean, (role_origin hs.sound hstep i).clean hs hclean⟩⟩

/-- The strings that are not clean are seen in the table. -/
theorem cleanStep_of_clean {s t : NamedTable} {a : NamedOp} (h : namedStep s a = some t)
    (hclean : ∀ i, t.Live i → t.CleanSlot i) : CleanStep s a := by
  obtain ⟨u, hstep, rfl⟩ := Option.map_eq_some_iff.mp h
  obtain ⟨op, path⟩ := a
  cases op with
  | setrole i a0 =>
    intro buf hfetch hlen
    simp only [agentStep, AgentTable.update, Option.ite_none_right_eq_some,
      Option.map_eq_some_iff] at hstep
    obtain ⟨hstarted, p, hp, rfl⟩ := hstep
    obtain rfl := Option.some.inj hp
    have hslot := (hclean i (by
      simpa [NamedTable.Live, AgentTable.put, state_setrole] using
        not_unused_of_started hstarted)).2
    simp only [NamedTable.roleStr, AgentTable.put, Function.update_self] at hslot
    rwa [roleStr_setrole hfetch (by omega)] at hslot
  | exec i image =>
    simp only [agentStep, AgentTable.update, Option.ite_none_right_eq_some,
      Option.map_eq_some_iff] at hstep
    obtain ⟨hstarted, p, hp, rfl⟩ := hstep
    obtain rfl := Option.some.inj hp
    have hslot := (hclean i (by
      simpa [NamedTable.Live, AgentTable.put] using not_unused_of_started hstarted)).1
    simp only [NamedTable.nameStr, NamedTable.names, Function.update_self] at hslot
    rwa [cstr_saveName, cstr_lastComponent] at hslot
  | _ => trivial

end LiberalOS.Kernel
