import Mathlib.Data.Vector.Basic
import Mathlib.Data.List.Infix
import LiberalOS.Foundation.Execution
import LiberalOS.Foundation.KeyedLog
import LiberalOS.Kernel.PartialCopy

/-!
# The checkpoint slot

`sys_checkpoint` and `sys_restore` of `kernel/sysproc.c`. There is one slot for all processes,
tagged with the pid that wrote it. The copies from and to user memory go through a temporary
outside of `ckpt.lock`, so a call consists of a copy and a critical section that other processes'
calls may come between.

The state also carries the log of the checkpoints stored, which no step reads.

## Main results

* `ckptSafe_along` — what a restore delivers is a piece from the front of the caller's own last
  checkpoint, and a call that fails leaves the slot alone.
* `restore_of_last_store` — the outcome of a restore, by who stored last.
-/
namespace LiberalOS.Kernel
open Foundation

/-! ## The slot -/

@[simp] abbrev ckptMax : Nat := 256

/-- Bytes that fit into the slot. -/
structure Blob where
  bytes : List UInt8
  le : bytes.length ≤ ckptMax

/-- `struct ckpt`. The bytes of `buf` from `len` on are left over from longer checkpoints. -/
structure CkptSlot where
  len : Nat
  owner : Nat
  buf : List.Vector UInt8 ckptMax
  len_le : len ≤ ckptMax

/-- The slot as `proxyinit` leaves it. -/
def CkptSlot.init : CkptSlot := ⟨0, 0, .replicate _ 0, Nat.zero_le _⟩

theorem length_overwrite {n : Nat} {bs : List UInt8} (h : bs.length ≤ n) (v : List.Vector UInt8 n) :
    (bs ++ v.toList.drop bs.length).length = n := by
  simp
  omega

/-- The critical section of `sys_checkpoint`. -/
def CkptSlot.save (slot : CkptSlot) (pid : Nat) (tmp : Blob) : CkptSlot where
  len := tmp.bytes.length
  owner := pid
  buf := ⟨tmp.bytes ++ slot.buf.toList.drop tmp.bytes.length, length_overwrite tmp.le slot.buf⟩
  len_le := tmp.le

/-- The critical section of `sys_restore`: the bytes copied to its `tmp`. -/
def CkptSlot.load (slot : CkptSlot) (pid len : Nat) : List UInt8 :=
  let n := if slot.owner = pid then slot.len else 0
  let n := if n > len then len else n
  slot.buf.toList.take n

/-- The checkpoint the slot holds. -/
def CkptSlot.content (slot : CkptSlot) : List UInt8 := slot.buf.toList.take slot.len

@[simp] theorem CkptSlot.content_save (slot : CkptSlot) (pid : Nat) (tmp : Blob) :
    (slot.save pid tmp).content = tmp.bytes := by
  simp [content, save]

/-- The owner reads the front of the content, anybody else reads nothing. -/
theorem CkptSlot.load_eq (slot : CkptSlot) (pid len : Nat) :
    slot.load pid len = if slot.owner = pid then slot.content.take len else [] := by
  simp only [load, content]
  by_cases h : slot.owner = pid
  · rw [if_pos h, if_pos h, List.take_take]
    congr 1
    split <;> omega
  · simp [h]

/-! ## Processes -/

/-- Where a process is: outside of these calls, or between two steps of one. -/
inductive CkptPhase where
  | user
  | storing (vm : AddressSpace) (tmp : Blob)
  | loading (env : AllocEnv) (vm : AddressSpace) (dst len : Nat)
  | delivering (env : AllocEnv) (vm : AddressSpace) (dst : Nat) (tmp : List UInt8)
  | returned (ret : Int) (vm : AddressSpace)

def CkptPhase.inCall : CkptPhase → Bool
  | .user | .returned .. => false
  | _ => true

structure CkptState where
  slot : CkptSlot
  phase : Nat → CkptPhase
  stores : List (Nat × List UInt8)

def CkptState.init : CkptState := ⟨.init, fun _ => .user, []⟩

/-- A step of process `pid`. The memory and the registers of a call are whatever the process has. -/
inductive CkptLabel where
  | checkpoint (pid : Nat) (env : AllocEnv) (vm : AddressSpace) (src len : Nat)
  | store (pid : Nat)
  | restore (pid : Nat) (env : AllocEnv) (vm : AddressSpace) (dst len : Nat)
  | load (pid : Nat)
  | deliver (pid : Nat)

def CkptLabel.pid : CkptLabel → Nat
  | .checkpoint pid .. | .store pid | .restore pid .. | .load pid | .deliver pid => pid

def CkptState.goto (s : CkptState) (pid : Nat) (next : CkptPhase) : CkptState :=
  { s with phase := Function.update s.phase pid next }

/-- The copy of `sys_checkpoint`; nothing is copied for a length of 0. -/
def ckptCopyin (env : AllocEnv) (vm : AddressSpace) (src : Nat) (len : Int) :
    Option (List UInt8) × AddressSpace :=
  if len > 0 then copyin env vm src len.toNat else (some [], vm)

theorem ckptCopyin_spec {env : AllocEnv} {vm vm' : AddressSpace} {src : Nat} {len : Int}
    {bs : List UInt8} (hlen : 0 ≤ len) (h : ckptCopyin env vm src len = (some bs, vm')) :
    (bs.length : Int) = len ∧ ∀ k < bs.length, bs[k]? = byteAt vm' (src + k) := by
  unfold ckptCopyin at h
  split at h
  · obtain ⟨hlength, hbytes⟩ := copyin_spec h
    exact ⟨by omega, fun k hk => hbytes k (by omega)⟩
  · obtain ⟨hbs, -⟩ := Prod.mk.inj h
    obtain rfl := Option.some.inj hbs
    exact ⟨by simp; omega, by simp⟩

/-- The `tmp` of `sys_checkpoint`. The length has been checked, so what is copied in fits. -/
def ckptTmp (env : AllocEnv) (vm : AddressSpace) (src : Nat) (len : Int) :
    Option Blob × AddressSpace :=
  let r := ckptCopyin env vm src len
  (r.1.bind fun bs => if h : bs.length ≤ ckptMax then some ⟨bs, h⟩ else none, r.2)

theorem ckptTmp_some {env : AllocEnv} {vm vm' : AddressSpace} {src : Nat} {len : Int} {tmp : Blob}
    (h : ckptTmp env vm src len = (some tmp, vm')) :
    ckptCopyin env vm src len = (some tmp.bytes, vm') := by
  obtain ⟨hbind, hvm⟩ := Prod.mk.inj h
  obtain ⟨bs, hbs, hfit⟩ := Option.bind_eq_some_iff.mp hbind
  split at hfit
  · obtain rfl := Option.some.inj hfit
    exact Prod.ext hbs hvm
  · cases hfit

theorem ckptTmp_none {env : AllocEnv} {vm vm' : AddressSpace} {src : Nat} {len : Int}
    (hlen : ¬ (len < 0 ∨ len > ckptMax)) (h : ckptTmp env vm src len = (none, vm')) :
    ckptCopyin env vm src len = (none, vm') := by
  obtain ⟨hbind, hvm⟩ := Prod.mk.inj h
  cases hbs : (ckptCopyin env vm src len).1 with
  | none => exact Prod.ext hbs hvm
  | some bs =>
    have hlength := (ckptCopyin_spec (by omega) (Prod.ext hbs rfl)).1
    have hfit : bs.length ≤ ckptMax := by omega
    simp [hbs, hfit] at hbind

def ckptNext (s : CkptState) : CkptLabel → Option CkptState
  | .checkpoint pid env vm src len =>
    if (s.phase pid).inCall then none
    else if argint len < 0 ∨ argint len > ckptMax then some (s.goto pid (.returned (-1) vm))
    else
      match ckptTmp env vm src (argint len) with
      | (none, vm') => some (s.goto pid (.returned (-1) vm'))
      | (some tmp, vm') => some (s.goto pid (.storing vm' tmp))
  | .store pid =>
    match s.phase pid with
    | .storing vm tmp =>
      some { s.goto pid (.returned tmp.bytes.length vm) with
        slot := s.slot.save pid tmp
        stores := s.stores ++ [(pid, tmp.bytes)] }
    | _ => none
  | .restore pid env vm dst len =>
    if (s.phase pid).inCall then none
    else if argint len < 0 then some (s.goto pid (.returned (-1) vm))
    else some (s.goto pid (.loading env vm dst (argint len).toNat))
  | .load pid =>
    match s.phase pid with
    | .loading env vm dst len =>
      let tmp := s.slot.load pid len
      some (s.goto pid (if tmp = [] then .returned 0 vm else .delivering env vm dst tmp))
    | _ => none
  | .deliver pid =>
    match s.phase pid with
    | .delivering env vm dst tmp =>
      let r := copyout env vm dst tmp
      some (s.goto pid (.returned (if r.1 then tmp.length else -1) r.2))
    | _ => none

/-- The transitions, one constructor for each way through a step. -/
inductive CkptStep : CkptState → CkptLabel → CkptState → Prop
  | badLength {s pid env vm src len} (user : (s.phase pid).inCall = false)
      (bad : argint len < 0 ∨ argint len > ckptMax) :
      CkptStep s (.checkpoint pid env vm src len) (s.goto pid (.returned (-1) vm))
  | fault {s pid env vm vm' src len} (user : (s.phase pid).inCall = false)
      (copy : ckptCopyin env vm src (argint len) = (none, vm')) :
      CkptStep s (.checkpoint pid env vm src len) (s.goto pid (.returned (-1) vm'))
  | copied {s pid env vm vm' src len} {tmp : Blob} (user : (s.phase pid).inCall = false)
      (nonneg : 0 ≤ argint len)
      (copy : ckptCopyin env vm src (argint len) = (some tmp.bytes, vm')) :
      CkptStep s (.checkpoint pid env vm src len) (s.goto pid (.storing vm' tmp))
  | store {s pid vm tmp} (here : s.phase pid = .storing vm tmp) :
      CkptStep s (.store pid) { s.goto pid (.returned tmp.bytes.length vm) with
        slot := s.slot.save pid tmp
        stores := s.stores ++ [(pid, tmp.bytes)] }
  | refused {s pid env vm dst len} (user : (s.phase pid).inCall = false)
      (bad : argint len < 0) :
      CkptStep s (.restore pid env vm dst len) (s.goto pid (.returned (-1) vm))
  | restore {s pid env vm dst len} (user : (s.phase pid).inCall = false)
      (nonneg : 0 ≤ argint len) :
      CkptStep s (.restore pid env vm dst len)
        (s.goto pid (.loading env vm dst (argint len).toNat))
  | nothing {s pid env vm dst len} (here : s.phase pid = .loading env vm dst len)
      (empty : s.slot.load pid len = []) :
      CkptStep s (.load pid) (s.goto pid (.returned 0 vm))
  | load {s pid env vm dst len} (here : s.phase pid = .loading env vm dst len)
      (some : s.slot.load pid len ≠ []) :
      CkptStep s (.load pid) (s.goto pid (.delivering env vm dst (s.slot.load pid len)))
  | deliver {s pid env vm dst tmp} (here : s.phase pid = .delivering env vm dst tmp) :
      CkptStep s (.deliver pid) (s.goto pid (.returned
        (if (copyout env vm dst tmp).1 then tmp.length else -1) (copyout env vm dst tmp).2))

theorem ckptStep_of_ckptNext {s t : CkptState} {l : CkptLabel} (h : ckptNext s l = some t) :
    CkptStep s l t := by
  cases l with
  | checkpoint pid env vm src len =>
    simp only [ckptNext] at h
    split at h
    · cases h
    · next huser =>
      have huser : (s.phase pid).inCall = false := by simpa using huser
      split at h
      · next hbad => exact Option.some.inj h ▸ .badLength huser hbad
      · next hlen =>
        split at h
        · next vm' htmp => exact Option.some.inj h ▸ .fault huser (ckptTmp_none hlen htmp)
        · next tmp vm' htmp =>
          exact Option.some.inj h ▸ .copied huser (by omega) (ckptTmp_some htmp)
  | store pid =>
    simp only [ckptNext] at h
    split at h
    · next vm tmp here => exact Option.some.inj h ▸ .store here
    · cases h
  | restore pid env vm dst len =>
    simp only [ckptNext] at h
    split at h
    · cases h
    · next huser =>
      have huser : (s.phase pid).inCall = false := by simpa using huser
      split at h
      · next hbad => exact Option.some.inj h ▸ .refused huser hbad
      · next hlen => exact Option.some.inj h ▸ .restore huser (by omega)
  | load pid =>
    simp only [ckptNext] at h
    split at h
    · next env vm dst len here =>
      by_cases hempty : s.slot.load pid len = []
      · rw [if_pos hempty] at h
        exact Option.some.inj h ▸ .nothing here hempty
      · rw [if_neg hempty] at h
        exact Option.some.inj h ▸ .load here hempty
    · cases h
  | deliver pid =>
    simp only [ckptNext] at h
    split at h
    · next env vm dst tmp here => exact Option.some.inj h ▸ .deliver here
    · cases h

@[simp] theorem phase_goto_self (s : CkptState) (pid : Nat) (next : CkptPhase) :
    (s.goto pid next).phase pid = next := Function.update_self ..

theorem phase_goto_ne {s : CkptState} {pid q : Nat} (h : q ≠ pid) (next : CkptPhase) :
    (s.goto pid next).phase q = s.phase q := Function.update_of_ne h ..

/-- A step moves only the process that takes it. -/
theorem CkptStep.phase_ne {s t : CkptState} {l : CkptLabel} (h : CkptStep s l t) {q : Nat}
    (hq : q ≠ l.pid) : t.phase q = s.phase q := by
  cases h <;> exact phase_goto_ne hq _

/-- Only the critical section of a checkpoint changes the slot and the log. -/
theorem CkptStep.slot_eq {s t : CkptState} {l : CkptLabel} (h : CkptStep s l t)
    (hl : ∀ pid, l ≠ .store pid) : t.slot = s.slot ∧ t.stores = s.stores := by
  cases h with
  | store here => exact absurd rfl (hl _)
  | _ => exact ⟨rfl, rfl⟩

/-! ## The invariant -/

/-- The last checkpoint the process has stored. -/
def CkptState.last (s : CkptState) (pid : Nat) : Option (List UInt8) :=
  (lastFor Prod.fst pid s.stores).map Prod.snd

/-- The slot holds the last checkpoint stored. What a restore has read is from the caller's own. -/
structure SlotCurrent (s : CkptState) : Prop where
  empty : s.stores = [] → s.slot.len = 0
  owner : ∀ pid blob, s.stores.getLast? = some (pid, blob) →
    s.slot.owner = pid ∧ s.slot.content = blob
  read : ∀ pid env vm dst tmp, s.phase pid = .delivering env vm dst tmp →
    ∃ blob, s.last pid = some blob ∧ tmp <+: blob

theorem SlotCurrent.init : SlotCurrent .init :=
  ⟨fun _ => rfl, by simp [CkptState.init], by simp [CkptState.init]⟩

theorem last_of_getLast? {s : CkptState} {pid : Nat} {blob : List UInt8}
    (h : s.stores.getLast? = some (pid, blob)) : s.last pid = some blob := by
  obtain ⟨before, hstores⟩ := List.getLast?_eq_some_iff.mp h
  rw [CkptState.last, hstores, lastFor_append_singleton, if_pos rfl]
  rfl

/-- Who may read what from the slot. -/
theorem SlotCurrent.load_cases {s : CkptState} (h : SlotCurrent s) (pid len : Nat) :
    s.slot.load pid len = [] ∨
      ∃ blob, s.stores.getLast? = some (pid, blob) ∧ s.slot.load pid len = blob.take len := by
  rw [CkptSlot.load_eq]
  cases hlast : s.stores.getLast? with
  | none =>
    have hlen := h.empty (List.getLast?_eq_none_iff.mp hlast)
    have hcontent : s.slot.content = [] := by simp [CkptSlot.content, hlen]
    exact Or.inl (by simp [hcontent])
  | some e =>
    obtain ⟨q, blob⟩ := e
    obtain ⟨howner, hcontent⟩ := h.owner q blob hlast
    by_cases hq : q = pid
    · subst hq
      exact Or.inr ⟨blob, rfl, by rw [if_pos howner, hcontent]⟩
    · exact Or.inl (if_neg (howner ▸ hq))

theorem SlotCurrent.step {s t : CkptState} {l : CkptLabel} (h : SlotCurrent s)
    (hstep : CkptStep s l t) : SlotCurrent t := by
  -- a process that is delivering stays where it is, and its own last checkpoint too
  have hothers : ∀ pid env vm dst tmp, pid ≠ l.pid → t.phase pid = .delivering env vm dst tmp →
      (∀ blob, s.last pid = some blob → t.last pid = some blob) →
      ∃ blob, t.last pid = some blob ∧ tmp <+: blob := by
    intro pid env vm dst tmp hpid hphase hlast
    obtain ⟨blob, hblob, hfront⟩ := h.read pid env vm dst tmp (hstep.phase_ne hpid ▸ hphase)
    exact ⟨blob, hlast blob hblob, hfront⟩
  by_cases hstore : ∃ pid, l = .store pid
  · obtain ⟨pid, rfl⟩ := hstore
    cases hstep with
    | @store _ vm tmp here =>
    refine ⟨by simp, ?_, ?_⟩
    · intro q blob hlast
      obtain ⟨rfl, rfl⟩ : pid = q ∧ tmp.bytes = blob := by simpa using hlast
      exact ⟨rfl, CkptSlot.content_save _ _ _⟩
    · intro q env vm' dst tmp' hphase
      by_cases hq : q = pid
      · subst hq
        cases (phase_goto_self s q _).symm.trans hphase
      · refine hothers q env vm' dst tmp' hq hphase fun blob hblob => ?_
        rw [CkptState.last, lastFor_append_singleton, if_neg (Ne.symm hq)]
        exact hblob
  · obtain ⟨hslot, hstores⟩ := hstep.slot_eq fun pid hl => hstore ⟨pid, hl⟩
    have hlast : ∀ pid, t.last pid = s.last pid := fun pid => by
      rw [CkptState.last, hstores, CkptState.last]
    refine ⟨hstores ▸ hslot ▸ h.empty, hstores ▸ hslot ▸ h.owner, ?_⟩
    intro pid env vm dst tmp hphase
    by_cases hpid : pid = l.pid
    · subst hpid
      cases hstep with
      | @load _ _ _ _ len here some =>
        obtain ⟨rfl, rfl, rfl, rfl⟩ : _ ∧ _ ∧ _ ∧ s.slot.load _ len = tmp := by
          simpa [CkptLabel.pid] using hphase
        rcases h.load_cases _ len with hempty | ⟨blob, hblob, hload⟩
        · exact absurd hempty some
        · exact ⟨blob, last_of_getLast? hblob, hload ▸ List.take_prefix _ _⟩
      | store here => exact absurd ⟨_, rfl⟩ hstore
      | _ => simp [CkptLabel.pid] at hphase
    · exact hothers pid env vm dst tmp hpid hphase fun blob hblob => (hlast pid).trans hblob

theorem SlotCurrent.of_exec {ls : List CkptLabel} {s : CkptState}
    (h : exec ckptNext .init ls = some s) : SlotCurrent s :=
  exec_invariant (fun _ _ _ hs ht => hs.step (ckptStep_of_ckptNext ht)) .init h

/-! ## Confidential and untorn -/

/-- What each step of the calls keeps to. The bytes a restore stores are from the front of the
caller's own last checkpoint, and the slot changes only in a checkpoint that returns its length. -/
structure CkptSafe (s : CkptState) (l : CkptLabel) (t : CkptState) : Prop where
  copies : ∀ pid env vm src len vm' tmp, l = .checkpoint pid env vm src len →
    t.phase pid = .storing vm' tmp → (tmp.bytes.length : Int) = argint len ∧
      ∀ k < tmp.bytes.length, tmp.bytes[k]? = byteAt vm' (src + k)
  stores : ∀ pid, l = .store pid → ∃ vm tmp, s.phase pid = .storing vm tmp ∧
    t.phase pid = .returned tmp.bytes.length vm ∧ t.last pid = some tmp.bytes
  keeps : (∀ pid, l ≠ .store pid) → t.slot = s.slot
  nothing : ∀ pid env vm dst len ret vm', l = .load pid → s.phase pid = .loading env vm dst len →
    t.phase pid = .returned ret vm' → ret = 0 ∧ vm' = vm
  delivers : ∀ pid, l = .deliver pid → ∃ env vm dst tmp blob ret vm' m,
    s.phase pid = .delivering env vm dst tmp ∧ s.last pid = some blob ∧
      t.phase pid = .returned ret vm' ∧ Copied vm vm' dst blob m ∧ (ret = -1 ∨ ret = m)

/-- A piece from the front of a list is also one of any longer list. -/
theorem Copied.extend {vm vm' : AddressSpace} {dst m : Nat} {tmp blob : List UInt8}
    (h : Copied vm vm' dst tmp m) (hfront : tmp <+: blob) : Copied vm vm' dst blob m where
  le := h.le.trans hfront.length_le
  stored := by
    intro k hk
    have hle := h.le
    obtain ⟨rest, rfl⟩ := hfront
    rw [h.stored k hk, List.getElem?_append_left (by omega)]
  elsewhere := h.elsewhere

theorem SlotCurrent.ckptSafe {s t : CkptState} {l : CkptLabel} (h : SlotCurrent s)
    (hstep : CkptStep s l t) : CkptSafe s l t where
  copies := by
    rintro pid env vm src len vm' tmp rfl hphase
    cases hstep with
    | badLength user bad => simp at hphase
    | fault user copy => simp at hphase
    | copied user nonneg copy =>
      obtain ⟨rfl, rfl⟩ : _ = vm' ∧ _ = tmp := by simpa using hphase
      exact ckptCopyin_spec nonneg copy
  stores := by
    rintro pid rfl
    cases hstep with
    | @store _ vm tmp here =>
    refine ⟨vm, tmp, here, phase_goto_self .., ?_⟩
    exact last_of_getLast? (by simp)
  keeps := fun hl => (hstep.slot_eq hl).1
  nothing := by
    rintro pid env vm dst len ret vm' rfl hloading hphase
    cases hstep with
    | nothing here empty =>
      have hvm := here.symm.trans hloading
      obtain ⟨rfl, rfl⟩ : 0 = ret ∧ _ = vm' := by simpa using hphase
      simp_all
    | load here some => simp at hphase
  delivers := by
    rintro pid rfl
    cases hstep with
    | @deliver _ env vm dst tmp here =>
    obtain ⟨blob, hblob, hfront⟩ := h.read _ _ _ _ _ here
    obtain ⟨m, hcopied, hall⟩ := copyout_frame env vm dst tmp
    refine ⟨env, vm, dst, tmp, blob, _, _, m, here, hblob, phase_goto_self ..,
      hcopied.extend hfront, ?_⟩
    cases hok : (copyout env vm dst tmp).1 with
    | false => exact Or.inl (by simp)
    | true => exact Or.inr (by simp [hall hok])

/-- In every interleaving of any number of processes, with any arguments. -/
theorem ckptSafe_along (ls : List CkptLabel) : Along ckptNext CkptSafe .init ls := by
  refine (along_true _ _).of_invariant SlotCurrent ?_ SlotCurrent.init
  intro s l t hs ht _
  have hstep := ckptStep_of_ckptNext ht
  exact ⟨hs.ckptSafe hstep, hs.step hstep⟩

/-! ## Availability -/

/-- The restore that process `p` has begun can be brought to its end, and however it gets there it
returns the number of these bytes and stores them at `dst`. -/
structure RestoreGives (u : CkptState) (p : Nat) (vm : AddressSpace) (dst : Nat)
    (bytes : List UInt8) : Prop where
  returns : ∃ rest t ret vm', (∀ l ∈ rest, l = .deliver p) ∧
    exec ckptNext u (.load p :: rest) = some t ∧ t.phase p = .returned ret vm'
  gives : ∀ rest t ret vm', (∀ l ∈ rest, l.pid = p → l = .deliver p) →
    exec ckptNext u (.load p :: rest) = some t → t.phase p = .returned ret vm' →
      ret = bytes.length ∧ Copied vm vm' dst bytes bytes.length

/-- Other processes' steps leave a process where it is. -/
theorem exec_phase_ne {p : Nat} {ls : List CkptLabel} {s t : CkptState}
    (hls : ∀ l ∈ ls, l.pid ≠ p) (h : exec ckptNext s ls = some t) : t.phase p = s.phase p := by
  refine exec_invariant_of_along (C := fun _ _ _ => True) (I := fun u => u.phase p = s.phase p) ?_
    rfl h (along_true _ _)
  intro u l v hl hu hv _
  rw [(ckptStep_of_ckptNext hv).phase_ne (Ne.symm (hls l hl)), hu]

/-- The steps a call of `p` may still take do not touch one that has returned. -/
theorem exec_returned {p : Nat} {rest : List CkptLabel} {s t : CkptState} {ret : Int}
    {vm : AddressSpace} (hphase : s.phase p = .returned ret vm)
    (hrest : ∀ l ∈ rest, l.pid = p → l = .deliver p) (h : exec ckptNext s rest = some t) :
    t.phase p = .returned ret vm := by
  refine exec_invariant_of_along (C := fun _ _ _ => True)
    (I := fun u => u.phase p = .returned ret vm) ?_ hphase h (along_true _ _)
  intro u l v hl hu hv _
  have hstep := ckptStep_of_ckptNext hv
  by_cases hpid : l.pid = p
  · obtain rfl := hrest l hl hpid
    cases hstep with
    | deliver here => cases here.symm.trans hu
  · rw [hstep.phase_ne (Ne.symm hpid), hu]

/-- A restore that has read the slot delivers what it has read. -/
theorem exec_delivering {p : Nat} {rest : List CkptLabel} {s t : CkptState} {env : AllocEnv}
    {vm : AddressSpace} {dst : Nat} {tmp : List UInt8}
    (hphase : s.phase p = .delivering env vm dst tmp)
    (hrest : ∀ l ∈ rest, l.pid = p → l = .deliver p) (h : exec ckptNext s rest = some t) :
    t.phase p = .delivering env vm dst tmp ∨
      t.phase p = .returned (if (copyout env vm dst tmp).1 then tmp.length else -1)
        (copyout env vm dst tmp).2 := by
  refine exec_invariant_of_along (C := fun _ _ _ => True)
    (I := fun u => u.phase p = .delivering env vm dst tmp ∨
      u.phase p = .returned (if (copyout env vm dst tmp).1 then tmp.length else -1)
        (copyout env vm dst tmp).2) ?_ (Or.inl hphase) h (along_true _ _)
  intro u l v hl hu hv _
  have hstep := ckptStep_of_ckptNext hv
  by_cases hpid : l.pid = p
  · obtain rfl := hrest l hl hpid
    cases hstep with
    | deliver here =>
      rcases hu with hu | hu
      · cases here.symm.trans hu
        exact Or.inr (phase_goto_self ..)
      · cases here.symm.trans hu
  · rwa [hstep.phase_ne (Ne.symm hpid)]

/-- A restore that finds nothing for its caller. -/
theorem restoreGives_nothing {u : CkptState} {p : Nat} {env : AllocEnv} {vm : AddressSpace}
    {dst len : Nat} (hphase : u.phase p = .loading env vm dst len)
    (hload : u.slot.load p len = []) : RestoreGives u p vm dst [] := by
  have hnext : ckptNext u (.load p) = some (u.goto p (.returned 0 vm)) := by
    simp [ckptNext, hphase, hload]
  refine ⟨⟨[], _, 0, vm, by simp, (exec_singleton _ _).trans hnext, phase_goto_self ..⟩, ?_⟩
  intro rest t ret vm' hrest hexec hret
  rw [exec_cons, hnext, Option.bind_some] at hexec
  have hphase' := exec_returned (phase_goto_self ..) hrest hexec
  obtain ⟨rfl, rfl⟩ : 0 = ret ∧ vm = vm' := by simpa [hphase'] using hret
  exact ⟨rfl, .nothing (fun _ => Or.inl rfl) dst []⟩

/-- A restore that reads something and has a writable destination for it. -/
theorem restoreGives_load {u : CkptState} {p : Nat} {env : AllocEnv} {vm : AddressSpace}
    {dst len : Nat} (hphase : u.phase p = .loading env vm dst len)
    (hload : u.slot.load p len ≠ [])
    (hwrite : ∀ k < (u.slot.load p len).length, WritableAt vm (dst + k)) :
    RestoreGives u p vm dst (u.slot.load p len) := by
  generalize htmp : u.slot.load p len = tmp at hload hwrite
  have hnext : ckptNext u (.load p) = some (u.goto p (.delivering env vm dst tmp)) := by
    simp [ckptNext, hphase, htmp, hload]
  have hok : (copyout env vm dst tmp).1 = true := copyout_of_writable hwrite
  constructor
  · have hdeliver : ckptNext (u.goto p (.delivering env vm dst tmp)) (.deliver p) =
        some ((u.goto p (.delivering env vm dst tmp)).goto p
          (.returned (if (copyout env vm dst tmp).1 then tmp.length else -1)
            (copyout env vm dst tmp).2)) := by
      simp only [ckptNext, phase_goto_self]
    exact ⟨[.deliver p], _, _, _, by simp, exec_pair hnext hdeliver, phase_goto_self ..⟩
  · intro rest t ret vm' hrest hexec hret
    rw [exec_cons, hnext, Option.bind_some] at hexec
    rcases exec_delivering (phase_goto_self ..) hrest hexec with hphase' | hphase'
    · cases hphase'.symm.trans hret
    · obtain ⟨m, hcopied, hall⟩ := copyout_frame env vm dst tmp
      obtain ⟨rfl, rfl⟩ : (tmp.length : Int) = ret ∧ (copyout env vm dst tmp).2 = vm' := by
        simpa [hphase', hok] using hret
      exact ⟨rfl, hall hok ▸ hcopied⟩

/-- In every interleaving: a restore gives its caller the front of the last checkpoint it stored,
unless another process has stored one since; then it gives nothing. -/
theorem restore_of_last_store {before mid : List CkptLabel} {s u : CkptState} {p : Nat}
    {env : AllocEnv} {vm : AddressSpace} {dst len : Nat} {blob : List UInt8}
    (hbefore : exec ckptNext .init before = some s) (hblob : s.last p = some blob)
    (hlen : 0 ≤ argint len)
    (hwrite : ∀ k < min blob.length (argint len).toNat, WritableAt vm (dst + k))
    (hcall : exec ckptNext s (.restore p env vm dst len :: mid) = some u)
    (hmid : ∀ l ∈ mid, l.pid ≠ p) :
    (u.stores.getLast?.map Prod.fst = some p →
        RestoreGives u p vm dst (blob.take (argint len).toNat)) ∧
      (u.stores.getLast?.map Prod.fst ≠ some p → RestoreGives u p vm dst []) := by
  obtain ⟨v, hv, hrest⟩ := Option.bind_eq_some_iff.mp hcall
  have hcurrent : SlotCurrent u := by
    have hrun : exec ckptNext .init (before ++ .restore p env vm dst len :: mid) = some u := by
      rw [exec_append, hbefore]
      exact hcall
    exact SlotCurrent.of_exec hrun
  -- the process waits at the lock, and its last checkpoint is still the same
  have hphase : u.phase p = .loading env vm dst (argint len).toNat := by
    rw [exec_phase_ne hmid hrest]
    cases ckptStep_of_ckptNext hv with
    | refused user bad => omega
    | restore user nonneg => exact phase_goto_self ..
  have hlast : u.last p = some blob := by
    refine exec_invariant_of_along (C := fun _ _ _ => True) (I := fun w => w.last p = some blob) ?_
      ?_ hrest (along_true _ _)
    · intro w l w' hl hw hw' _
      have hstep := ckptStep_of_ckptNext hw'
      by_cases hstore : ∃ q, l = .store q
      · obtain ⟨q, rfl⟩ := hstore
        cases hstep with
        | store here =>
          have hq : q ≠ p := hmid _ hl
          rw [CkptState.last, lastFor_append_singleton, if_neg hq]
          exact hw
      · rw [CkptState.last, (hstep.slot_eq fun q hq => hstore ⟨q, hq⟩).2]
        exact hw
    · have hsame := ((ckptStep_of_ckptNext hv).slot_eq (by simp)).2
      rw [CkptState.last, hsame]
      exact hblob
  constructor
  · intro hown
    obtain ⟨e, he, hp⟩ := Option.map_eq_some_iff.mp hown
    obtain ⟨q, blob'⟩ := e
    obtain rfl : q = p := hp
    obtain rfl : blob' = blob := Option.some.inj ((last_of_getLast? he).symm.trans hlast)
    obtain ⟨howner, hcontent⟩ := hcurrent.owner q blob' he
    have hload : u.slot.load q (argint len).toNat = blob'.take (argint len).toNat := by
      rw [CkptSlot.load_eq, if_pos howner, hcontent]
    rw [← hload]
    by_cases hempty : u.slot.load q (argint len).toNat = []
    · rw [hempty]
      exact restoreGives_nothing hphase hempty
    · refine restoreGives_load hphase hempty fun k hk => hwrite k ?_
      rw [hload, List.length_take] at hk
      omega
  · intro hother
    rcases hcurrent.load_cases p (argint len).toNat with hempty | ⟨blob', he, -⟩
    · exact restoreGives_nothing hphase hempty
    · exact absurd (by rw [he]; rfl) hother

/-- Processes 1 and 2 have each stored the byte at address 0 of their memory. -/
def twoCheckpoints : List CkptLabel :=
  [.checkpoint 1 .free (pageOf "a") 0 1, .store 1, .checkpoint 2 .free (pageOf "b") 0 1, .store 2]

/-- The state after a list of steps. -/
def ckptRun (s : CkptState) (ls : List CkptLabel) : CkptState := (exec ckptNext s ls).getD s

theorem two_restore_of_last_store :
    RestoreGives (ckptRun (ckptRun .init twoCheckpoints) [.restore 2 .free (pageOf "") 8 5]) 2
      (pageOf "") 8 [98] :=
  (@restore_of_last_store twoCheckpoints [] _ _ 2 .free (pageOf "") 8 5 [98] rfl rfl (by decide)
    (fun k hk => writableAt_pageOf (by simp only [List.length_singleton, pgsize] at *; omega)) rfl
    (by simp)).1 rfl

/-- Process 1, whose checkpoint process 2 has written over, gets nothing back. -/
theorem overwritten_checkpoint_lost :
    ¬ ∀ (before mid : List CkptLabel) (s u : CkptState) (p : Nat) (env : AllocEnv)
        (vm : AddressSpace) (dst len : Nat) (blob : List UInt8),
      exec ckptNext .init before = some s → s.last p = some blob → 0 < blob.length →
      0 ≤ argint len → (∀ k < min blob.length (argint len).toNat, WritableAt vm (dst + k)) →
      exec ckptNext s (.restore p env vm dst len :: mid) = some u → (∀ l ∈ mid, l.pid ≠ p) →
        RestoreGives u p vm dst (blob.take (argint len).toNat) := by
  intro h
  have hgives := h twoCheckpoints [] (ckptRun .init twoCheckpoints) _ 1 .free (pageOf "") 8 5 [97]
    rfl rfl (by decide) (by decide)
    (fun k hk => writableAt_pageOf (by simp only [List.length_singleton, pgsize] at *; omega)) rfl
    (by simp)
  obtain ⟨hret, -⟩ := hgives.gives [] _ 0 (pageOf "") (by simp) rfl rfl
  exact absurd hret (by decide)

end LiberalOS.Kernel
