import LiberalOS.Kernel.ProxyLock

/-!
# Parents and children

`kfork`, `kexit` with `reparent`, and `kwait` of `kernel/proc.c`, among all other steps of the
process table: who waits for whom. `kexit` passes the children of a process to `init` and wakes
those who may have to look again, all under `wait_lock`.

## Main results

* `parent_started` — every process has a parent that can wait for it.
* `fromInit_of_exec` — the parents form a tree with `init` at its root.
* `children_of_asleep` — a process sleeps in `wait` only while all its children go on.
-/
namespace LiberalOS.Kernel
open Foundation

/-- The process sleeps in `wait`. -/
structure LockProc.AsleepInWait (p : LockProc) : Prop where
  state : p.state = .sleeping
  pc : p.pc = .waiting

/-- The same process, for its parent and its children. -/
structure Kin (p q : LockProc) : Prop where
  pid : q.pid = p.pid
  parent : q.parent = p.parent
  unused : q.state = .unused ↔ p.state = .unused
  zombie : q.state = .zombie ↔ p.state = .zombie
  started : q.state.started = p.state.started

/-- The same, and it does not fall asleep in `wait`; it may have been woken. -/
structure SameFamily (p q : LockProc) : Prop extends Kin p q where
  asleep : q.AsleepInWait → p.AsleepInWait ∧ q.chan = p.chan ∧ q.killed = p.killed

theorem Kin.refl (p : LockProc) : Kin p p := ⟨rfl, rfl, Iff.rfl, Iff.rfl, rfl⟩

theorem Kin.trans {p q r : LockProc} (h : Kin p q) (h' : Kin q r) : Kin p r :=
  ⟨h'.pid.trans h.pid, h'.parent.trans h.parent, h'.unused.trans h.unused,
    h'.zombie.trans h.zombie, h'.started.trans h.started⟩

theorem Kin.of_started {p q : LockProc} (hpid : q.pid = p.pid) (hparent : q.parent = p.parent)
    (hp : p.state.started = true) (hq : q.state.started = true) : Kin p q := by
  refine ⟨hpid, hparent, ?_, ?_, hq.trans hp.symm⟩ <;>
    constructor <;> intro h <;> simp [h, ProcState.started] at hp hq

theorem SameFamily.refl (p : LockProc) : SameFamily p p := ⟨.refl p, fun h => ⟨h, rfl, rfl⟩⟩

theorem SameFamily.trans {p q r : LockProc} (h : SameFamily p q) (h' : SameFamily q r) :
    SameFamily p r := by
  refine ⟨h.toKin.trans h'.toKin, fun hr => ?_⟩
  obtain ⟨hq, hchan, hkilled⟩ := h'.asleep hr
  obtain ⟨hp, hchan', hkilled'⟩ := h.asleep hq
  exact ⟨hp, hchan.trans hchan', hkilled.trans hkilled'⟩

/-- A started process goes on and does not sleep in `wait`. -/
theorem SameFamily.of_started {p q : LockProc} (hpid : q.pid = p.pid)
    (hparent : q.parent = p.parent) (hp : p.state.started = true) (hq : q.state.started = true)
    (hawake : ¬q.AsleepInWait) : SameFamily p q :=
  ⟨.of_started hpid hparent hp hq, fun h => absurd h hawake⟩

theorem SameFamily.wake (chan : Chan) (p : LockProc) : SameFamily p (p.wake chan) := by
  unfold LockProc.wake
  split
  · next h =>
    exact .of_started rfl rfl (by simp [h.1, ProcState.started]) rfl fun h => by simpa using h.state
  · exact .refl p

theorem SameFamily.kill (p : LockProc) : SameFamily p p.kill := by
  by_cases h : p.state = .sleeping
  · refine .of_started rfl rfl (by simp [h, ProcState.started])
      (by simp [LockProc.kill, h, ProcState.started]) fun h' => ?_
    simpa [LockProc.kill, h] using h'.state
  · have hstate : p.kill.state = p.state := by simp [LockProc.kill, h]
    refine ⟨⟨rfl, rfl, by rw [hstate], by rw [hstate], by rw [hstate]⟩, fun h' => ?_⟩
    exact absurd (hstate.symm.trans h'.state) h

theorem SameFamily.goto {p : LockProc} (hp : p.state = .running) (pc : Pc) :
    SameFamily p (p.goto pc) :=
  .of_started rfl rfl (by simp [hp, ProcState.started])
    (by simp [LockProc.goto, hp, ProcState.started])
    fun h => by simpa [LockProc.goto, hp] using h.state

/-! ## The invariant -/

/-- A process that is in use has a parent that is older and has not exited. One that sleeps in
`wait` has children, and all of them go on. -/
structure Family (s : LockSys) : Prop where
  init : (s.proc initproc).state.started = true
  root : (s.proc initproc).parent = none
  slots : ∀ j, (s.proc j).state = .unused ∧ (s.proc j).parent = none ∨
    (s.proc j).state = .zombie ∨ (s.proc j).state.started = true
  parent : ∀ j, (s.proc j).state ≠ .unused → j ≠ initproc →
    ∃ i, (s.proc j).parent = some i ∧ (s.proc i).state.started = true
  fresh : ∀ j, (s.proc j).pid < s.nextpid
  first : ∀ j, (s.proc j).state ≠ .unused → (s.proc initproc).pid ≤ (s.proc j).pid
  older : ∀ i j, (s.proc j).parent = some i → (s.proc i).pid < (s.proc j).pid
  asleep : ∀ i, (s.proc i).AsleepInWait → (s.proc i).chan = some (.wait i) ∧
    (s.proc i).killed = false ∧ (∃ j, (s.proc j).parent = some i) ∧
    ∀ j, (s.proc j).parent = some i → (s.proc j).state ≠ .zombie

section
variable {s t : LockSys} {i j c : Fin nproc} {ok : Bool}

theorem Family.boot : Family .boot where
  init := by decide
  root := by decide
  slots := by decide
  parent := by decide
  fresh := by decide
  first := by decide
  older := by decide
  asleep i h := by
    have hstate := h.state
    simp only [LockSys.boot] at hstate
    split at hstate <;> simp [LockProc.free] at hstate

theorem Family.of_kin (h : Family s) (hnext : s.nextpid ≤ t.nextpid)
    (hkin : ∀ j, Kin (s.proc j) (t.proc j))
    (hasleep : ∀ i, (t.proc i).AsleepInWait → (t.proc i).chan = some (.wait i) ∧
      (t.proc i).killed = false ∧ (∃ j, (s.proc j).parent = some i) ∧
      ∀ j, (s.proc j).parent = some i → (s.proc j).state ≠ .zombie) : Family t where
  init := (hkin _).started.trans h.init
  root := (hkin _).parent.trans h.root
  fresh j := (hkin j).pid ▸ (h.fresh j).trans_le hnext
  first j hj := by
    rw [(hkin j).pid, (hkin _).pid]
    exact h.first j fun hu => hj ((hkin j).unused.mpr hu)
  older i j hij := by
    rw [(hkin j).pid, (hkin i).pid]
    exact h.older i j ((hkin j).parent.symm.trans hij)
  slots j := by
    rw [(hkin j).unused, (hkin j).parent, (hkin j).zombie, (hkin j).started]
    exact h.slots j
  parent j hj hne := by
    obtain ⟨i, hi, hstarted⟩ := h.parent j (fun hu => hj ((hkin j).unused.mpr hu)) hne
    exact ⟨i, (hkin j).parent.trans hi, (hkin i).started.trans hstarted⟩
  asleep i hi := by
    obtain ⟨hchan, hkilled, ⟨j, hj⟩, hchildren⟩ := hasleep i hi
    refine ⟨hchan, hkilled, ⟨j, (hkin j).parent.trans hj⟩, fun j hj hz => ?_⟩
    exact hchildren j ((hkin j).parent.symm.trans hj) ((hkin j).zombie.mp hz)

theorem Family.of_same (h : Family s) (hnext : s.nextpid ≤ t.nextpid)
    (hsame : ∀ j, SameFamily (s.proc j) (t.proc j)) : Family t := by
  refine h.of_kin hnext (fun j => (hsame j).toKin) fun i hi => ?_
  obtain ⟨hold, hchan, hkilled⟩ := (hsame i).asleep hi
  obtain ⟨hchan', hkilled', hchildren⟩ := h.asleep i hold
  exact ⟨hchan.trans hchan', hkilled.trans hkilled', hchildren⟩

theorem Family.parent_of_unused (h : Family s) (hj : (s.proc j).state = .unused) :
    (s.proc j).parent = none := by
  obtain ⟨-, hnone⟩ | hz | hs := h.slots j
  · exact hnone
  · simp [hj] at hz
  · simp [hj, ProcState.started] at hs

theorem Family.parent_of_some (h : Family s) (hij : (s.proc j).parent = some i) :
    ∃ k, (s.proc j).parent = some k ∧ (s.proc k).state.started = true := by
  refine h.parent j (fun hunused => ?_) ?_
  · simp [h.parent_of_unused hunused] at hij
  · rintro rfl
    simp [h.root] at hij

theorem put_proc_of_ne {p : LockProc} (h : j ≠ i) : (s.put i p).proc j = s.proc j :=
  Function.update_of_ne h _ _

theorem same_put {p : LockProc} (h : SameFamily (s.proc i) p) (j : Fin nproc) :
    SameFamily (s.proc j) ((s.put i p).proc j) := by
  by_cases hij : j = i
  · subst hij
    simpa [LockSys.put] using h
  · simpa [LockSys.put, Function.update_of_ne hij] using SameFamily.refl (s.proc j)

theorem same_kkill (s : LockSys) (pid : Nat) (j : Fin nproc) :
    SameFamily (s.proc j) ((kkill s pid).proc j) := by
  unfold kkill
  split
  · exact same_put (.kill _) j
  · exact .refl _

theorem nextpid_kkill (s : LockSys) (pid : Nat) : (kkill s pid).nextpid = s.nextpid := by
  unfold kkill
  split <;> rfl

/-! ## One lemma for each step -/

theorem Family.put (h : Family s) {p : LockProc} (hp : SameFamily (s.proc i) p) :
    Family (s.put i p) :=
  h.of_same le_rfl (same_put hp)

theorem Family.acquiresleep (h : Family s) (hi : (s.proc i).state = .running)
    (hpc : (s.proc i).pc = .acquiring) : Family (acquiresleep s i (s.proc i)) := by
  unfold Kernel.acquiresleep
  split
  · exact h.put (.of_started rfl rfl (by simp [hi, ProcState.started]) rfl fun h => by
      simpa [LockProc.sleep, hpc] using h.pc)
  · exact h.of_same le_rfl (same_put (.goto hi .ret))

theorem Family.consoleread (h : Family s) (hi : (s.proc i).state = .running) {n target : Nat}
    (hpc : (s.proc i).pc = .reading n target) :
    Family (consoleread s i (s.proc i) n target ok) := by
  unfold Kernel.consoleread
  split
  · exact h.put (.goto hi .ret)
  split
  · split
    · exact h.put (.goto hi .ret)
    · exact h.put (.of_started rfl rfl (by simp [hi, ProcState.started]) rfl fun h => by
        simpa [LockProc.sleep, hpc] using h.pc)
  split
  · exact h.of_same le_rfl (same_put (.goto hi _))
  split
  · exact h.of_same le_rfl (same_put (.goto hi _))
  · exact h.of_same le_rfl (same_put (.goto hi _))

/-- A slot that nobody runs in gets a new child or becomes free, while the parent it had is not
asleep. -/
theorem Family.put_slot (h : Family s) {p : LockProc} {n : Nat} (hn : s.nextpid ≤ n)
    (hc : (s.proc c).state.started = false)
    (hold : ∀ k, (s.proc c).parent = some k → ¬(s.proc k).AsleepInWait) (hpid : p.pid < n)
    (hp : p.state = .unused ∧ p.parent = none ∨ p.state = .runnable ∧ s.nextpid ≤ p.pid ∧
      ∃ i, p.parent = some i ∧ (s.proc i).state.started = true) :
    Family { s.put c p with nextpid := n } := by
  have hne : ∀ k, (s.proc k).state.started = true → k ≠ c := by
    rintro k hk rfl
    simp [hc] at hk
  have hself : (s.put c p).proc c = p := by simp [LockSys.put]
  refine ⟨?_, ?_, fun j => ?_, fun j hj hinit => ?_, fun j => ?_, fun j hj => ?_,
    fun i j hij => ?_, fun k hk => ?_⟩
  · rw [put_proc_of_ne (hne _ h.init)]
    exact h.init
  · rw [put_proc_of_ne (hne _ h.init)]
    exact h.root
  · by_cases hj : j = c
    · rw [hj, hself]
      obtain hfree | ⟨hrunnable, -⟩ := hp
      · exact Or.inl hfree
      · exact Or.inr (Or.inr (by simp [hrunnable, ProcState.started]))
    · rw [put_proc_of_ne hj]
      exact h.slots j
  · by_cases hjc : j = c
    · rw [hjc, hself] at hj ⊢
      obtain ⟨hunused, -⟩ | ⟨-, -, i, hi, hs⟩ := hp
      · exact absurd hunused hj
      · exact ⟨i, hi, by rwa [put_proc_of_ne (hne i hs)]⟩
    · rw [put_proc_of_ne hjc] at hj ⊢
      obtain ⟨k, hk, hstarted⟩ := h.parent j hj hinit
      exact ⟨k, hk, by rwa [put_proc_of_ne (hne k hstarted)]⟩
  · by_cases hjc : j = c
    · rwa [hjc, hself]
    · rw [put_proc_of_ne hjc]
      exact (h.fresh j).trans_le hn
  · rw [put_proc_of_ne (hne _ h.init)]
    by_cases hjc : j = c
    · rw [hjc, hself] at hj ⊢
      obtain ⟨hunused, -⟩ | ⟨-, hnew, -⟩ := hp
      · exact absurd hunused hj
      · exact (h.fresh _).le.trans hnew
    · rw [put_proc_of_ne hjc] at hj ⊢
      exact h.first j hj
  · by_cases hjc : j = c
    · rw [hjc, hself] at hij ⊢
      obtain ⟨-, hnone⟩ | ⟨-, hnew, k, hk, hs⟩ := hp
      · simp [hnone] at hij
      · obtain rfl : k = i := Option.some.inj (hk.symm.trans hij)
        rw [put_proc_of_ne (hne k hs)]
        exact (h.fresh k).trans_le hnew
    · rw [put_proc_of_ne hjc] at hij ⊢
      obtain ⟨k, hk, hs⟩ := h.parent_of_some hij
      obtain rfl : k = i := Option.some.inj (hk.symm.trans hij)
      rw [put_proc_of_ne (hne k hs)]
      exact h.older k j hij
  · have hkc : k ≠ c := by
      rintro rfl
      have hstate := hk.state
      rw [hself] at hstate
      obtain ⟨hunused, -⟩ | ⟨hrunnable, -⟩ := hp
      · simp [hunused] at hstate
      · simp [hrunnable] at hstate
    rw [put_proc_of_ne hkc] at hk ⊢
    obtain ⟨hchan, hkilled, ⟨j, hj⟩, hchildren⟩ := h.asleep k hk
    have hjc : j ≠ c := by
      rintro rfl
      exact hold k hj hk
    refine ⟨hchan, hkilled, ⟨j, by rwa [put_proc_of_ne hjc]⟩, fun j hj => ?_⟩
    by_cases hjc : j = c
    · rw [hjc, hself]
      obtain ⟨hunused, -⟩ | ⟨hrunnable, -⟩ := hp
      · simp [hunused]
      · simp [hrunnable]
    · rw [put_proc_of_ne hjc] at hj ⊢
      exact hchildren j hj

/-- A new child, in a slot that was free. -/
theorem Family.newChild (h : Family s) {p : LockProc} (hc : (s.proc c).state = .unused)
    (hi : (s.proc i).state.started = true) (hp : p.state = .runnable) (hparent : p.parent = some i)
    (hpid : p.pid = s.nextpid) : Family { s.put c p with nextpid := s.nextpid + 1 } := by
  have hstarted : (s.proc c).state.started = false := by simp [hc, ProcState.started]
  refine h.put_slot (Nat.le_succ _) hstarted (fun k hk => ?_) (by omega)
    (Or.inr ⟨hp, hpid.ge, i, hparent, hi⟩)
  simp [h.parent_of_unused hc] at hk

/-- A child that has exited is freed by its parent. -/
theorem Family.reap (h : Family s) (hc : (s.proc c).state = .zombie)
    (hparent : (s.proc c).parent = some i) (hi : (s.proc i).state = .running) :
    Family (s.put c .free) := by
  have hpos : 0 < s.nextpid := Nat.zero_lt_of_lt (h.fresh c)
  refine (h.put_slot (p := .free) le_rfl (by simp [hc, ProcState.started])
    (fun k hk hasleep => ?_) hpos (Or.inl ⟨rfl, rfl⟩)).of_same le_rfl fun j => .refl _
  obtain rfl : i = k := Option.some.inj (hparent.symm.trans hk)
  simpa [hi] using hasleep.state

/-- A process goes to sleep in `wait`. -/
theorem Family.sleepWait (h : Family s) (hi : (s.proc i).state = .running)
    (hkilled : (s.proc i).killed = false) (hchild : ∃ j, (s.proc j).parent = some i)
    (hnone : ∀ j, (s.proc j).parent = some i → (s.proc j).state ≠ .zombie) :
    Family (s.put i ((s.proc i).sleep (.wait i))) := by
  have hself : (s.put i ((s.proc i).sleep (.wait i))).proc i = (s.proc i).sleep (.wait i) := by
    simp [LockSys.put]
  refine h.of_kin le_rfl (fun j => ?_) fun k hk => ?_
  · by_cases hj : j = i
    · rw [hj, hself]
      exact .of_started rfl rfl (by simp [hi, ProcState.started]) rfl
    · rw [put_proc_of_ne hj]
      exact .refl _
  · by_cases hki : k = i
    · rw [hki, hself]
      exact ⟨rfl, hkilled, hchild, hnone⟩
    · rw [put_proc_of_ne hki] at hk ⊢
      exact h.asleep k hk

theorem Family.kfork (h : Family s) (hi : (s.proc i).state = .running) :
    Family (kfork s i (s.proc i) ok) := by
  have hret : Family (s.put i ((s.proc i).goto .ret)) := h.put (.goto hi .ret)
  unfold Kernel.kfork
  dsimp only
  split
  · exact hret
  · next c hc =>
    have hunused : (s.proc c).state = .unused := by simpa using List.find?_some hc
    have hne : c ≠ i := by
      rintro rfl
      simp [hi] at hunused
    have hslot : ((s.put i ((s.proc i).goto .ret)).proc c).state = .unused := by
      rwa [put_proc_of_ne hne]
    split
    · refine (hret.newChild (c := c) (i := i) (p := ⟨.runnable, s.nextpid, (s.proc c).killed,
        (s.proc c).chan, some i, .user⟩) hslot ?_ rfl rfl rfl).of_same le_rfl fun j => .refl _
      simp [LockSys.put, LockProc.goto, hi, ProcState.started]
    · refine (hret.put_slot (c := c) (p := .free) (Nat.le_succ _) ?_ (fun k hk => ?_)
        (Nat.succ_pos _) (Or.inl ⟨rfl, rfl⟩)).of_same le_rfl fun j => .refl _
      · simp [hslot, ProcState.started]
      · simp [hret.parent_of_unused hslot] at hk

theorem Family.kwait (h : Family s) (hi : (s.proc i).state = .running) :
    Family (kwait s i (s.proc i) ok) := by
  have hret : Family (s.put i ((s.proc i).goto .ret)) := h.put (.goto hi .ret)
  unfold Kernel.kwait
  split
  · next c hc =>
    obtain ⟨hparent, hzombie⟩ : (s.proc c).parent = some i ∧ (s.proc c).state = .zombie := by
      simpa using List.find?_some hc
    have hne : c ≠ i := by
      rintro rfl
      simp [hi] at hzombie
    split
    · refine hret.reap (i := i) ?_ ?_ ?_
      · rwa [put_proc_of_ne hne]
      · rwa [put_proc_of_ne hne]
      · simp [LockSys.put, LockProc.goto, hi]
    · exact hret
  · next hnone =>
    split
    · exact hret
    · next hwait =>
      simp only [not_or, Bool.not_eq_true, not_forall, not_not] at hwait
      refine h.sleepWait hi hwait.1 hwait.2 fun j hj hz => ?_
      have := List.find?_eq_none.mp hnone j (List.mem_finRange j)
      simp [hj, hz] at this

/-! ## Exits -/

/-- Nobody is asleep who was just woken. -/
theorem LockProc.AsleepInWait.chan_ne {chan : Chan} {p : LockProc}
    (h : (p.wake chan).AsleepInWait) : (p.wake chan).chan ≠ some chan := by
  intro hchan
  have hstate := h.state
  unfold LockProc.wake at hstate hchan
  split at hstate
  · cases hstate
  · next hnot =>
    rw [if_neg hnot] at hchan
    exact hnot ⟨hstate, hchan⟩

/-- `init` does not stay asleep when it gets children. -/
theorem reparent_proc (s : LockSys) (i j : Fin nproc) :
    SameFamily ((s.proc j).adopt i) ((reparent s i).proc j) ∧
      (((reparent s i).proc j).AsleepInWait →
        ((reparent s i).proc j).chan = some (.wait initproc) →
          ∀ k, (s.proc k).parent ≠ some i) := by
  unfold reparent
  split
  · exact ⟨.wake _ _, fun hasleep hchan => absurd hchan hasleep.chan_ne⟩
  · next hnone =>
    have hnone : ∀ k, (s.proc k).parent ≠ some i := fun k hk => hnone ⟨k, hk⟩
    refine ⟨?_, fun _ _ => hnone⟩
    rw [LockProc.adopt, if_neg (hnone j)]
    exact .refl _

theorem wakeParent_proc (s : LockSys) (p : LockProc) (j : Fin nproc) :
    SameFamily (s.proc j) ((wakeParent s p).proc j) ∧
      (((wakeParent s p).proc j).AsleepInWait → ∀ k, p.parent = some k →
        ((wakeParent s p).proc j).chan ≠ some (.wait k)) := by
  unfold wakeParent
  split
  · next q hq =>
    refine ⟨.wake _ _, fun hasleep k hk => ?_⟩
    obtain rfl : q = k := Option.some.inj (hq.symm.trans hk)
    exact hasleep.chan_ne
  · next hnone => exact ⟨.refl _, fun _ k hk => by simp [hnone] at hk⟩

theorem Family.kexit (h : Family s) (hi : (s.proc i).state = .running) (hinit : i ≠ initproc) :
    Family (kexit s i (s.proc i)) := by
  unfold Kernel.kexit
  dsimp only
  have hnext : (wakeParent (reparent s i) (s.proc i)).nextpid = s.nextpid := by
    unfold wakeParent reparent
    split <;> split <;> rfl
  generalize hu : wakeParent (reparent s i) (s.proc i) = u at hnext ⊢
  have hsame : ∀ j, SameFamily ((s.proc j).adopt i) (u.proc j) := fun j =>
    hu ▸ (reparent_proc s i j).1.trans (wakeParent_proc _ _ j).1
  have horphans : ∀ j, (u.proc j).AsleepInWait → (u.proc j).chan = some (.wait initproc) →
      ∀ k, (s.proc k).parent ≠ some i := by
    rintro j hj hchan
    subst hu
    obtain ⟨hj', hchan', -⟩ := (wakeParent_proc (reparent s i) (s.proc i) j).1.asleep hj
    exact (reparent_proc s i j).2 hj' (hchan'.symm.trans hchan)
  have hwoken : ∀ j, (u.proc j).AsleepInWait → ∀ k, (s.proc i).parent = some k →
      (u.proc j).chan ≠ some (.wait k) := fun j hj =>
    hu ▸ (wakeParent_proc (reparent s i) (s.proc i) j).2 (hu ▸ hj)
  have hstate : ∀ j, ((s.proc j).adopt i).state = (s.proc j).state := by
    intro j
    unfold LockProc.adopt
    split <;> rfl
  have hadopt : ∀ j, ((s.proc j).adopt i).parent =
      if (s.proc j).parent = some i then some initproc else (s.proc j).parent := by
    intro j
    unfold LockProc.adopt
    split <;> rfl
  -- the process that exits keeps its parent
  have hparent : ∀ j, ((u.put i { u.proc i with state := .zombie }).proc j).parent =
      if (s.proc j).parent = some i then some initproc else (s.proc j).parent := by
    intro j
    rw [← hadopt, ← (hsame j).parent]
    by_cases hj : j = i
    · subst hj
      simp [LockSys.put]
    · rw [put_proc_of_ne hj]
  have hpid : ∀ j, ((u.put i { u.proc i with state := .zombie }).proc j).pid =
      (s.proc j).pid := by
    intro j
    have hadopt : ((s.proc j).adopt i).pid = (s.proc j).pid := by
      unfold LockProc.adopt
      split <;> rfl
    rw [← hadopt, ← (hsame j).pid]
    by_cases hj : j = i
    · subst hj
      simp [LockSys.put]
    · rw [put_proc_of_ne hj]
  have hused : ∀ j, ((u.put i { u.proc i with state := .zombie }).proc j).state ≠ .unused →
      (s.proc j).state ≠ .unused := by
    intro j hj
    by_cases hji : j = i
    · simp [hji, hi]
    · rwa [put_proc_of_ne hji, ne_eq, (hsame j).unused, hstate] at hj
  have hstarted : ∀ j, j ≠ i → (s.proc j).state.started = true →
      ((u.put i { u.proc i with state := .zombie }).proc j).state.started = true := by
    intro j hj hs
    rw [put_proc_of_ne hj, (hsame j).started, hstate]
    exact hs
  refine ⟨hstarted _ hinit.symm h.init, ?_, fun j => ?_, fun j hj hne => ?_, fun j => ?_,
    fun j hj => ?_, fun k j hkj => ?_, fun k hk => ?_⟩
  · rw [hparent, h.root]
    rfl
  · by_cases hj : j = i
    · subst hj
      exact Or.inr (Or.inl (by simp [LockSys.put]))
    · obtain ⟨hunused, hnone⟩ | hz | hs := h.slots j
      · refine Or.inl ⟨?_, by rw [hparent, hnone]; rfl⟩
        rw [put_proc_of_ne hj, (hsame j).unused, hstate]
        exact hunused
      · refine Or.inr (Or.inl ?_)
        rw [put_proc_of_ne hj, (hsame j).zombie, hstate]
        exact hz
      · exact Or.inr (Or.inr (hstarted j hj hs))
  · obtain ⟨k, hk, hks⟩ := h.parent j (hused j hj) hne
    rw [hparent, hk]
    by_cases hki : k = i
    · subst hki
      exact ⟨initproc, if_pos rfl, hstarted _ hinit.symm h.init⟩
    · exact ⟨k, if_neg (by simpa using hki), hstarted k hki hks⟩
  · rw [hpid]
    exact hnext.symm ▸ h.fresh j
  · rw [hpid, hpid]
    exact h.first j (hused j hj)
  · rw [hpid, hpid]
    rw [hparent] at hkj
    split at hkj
    · next hchild =>
      obtain rfl := Option.some.inj hkj
      exact (h.first i (by simp [hi])).trans_lt (h.older i j hchild)
    · exact h.older k j hkj
  · have hki : k ≠ i := by
      rintro rfl
      simpa [LockSys.put] using hk.state
    rw [put_proc_of_ne hki] at hk ⊢
    obtain ⟨hold, hchan, hkilled⟩ := (hsame k).asleep hk
    have hfield : ((s.proc k).adopt i).chan = (s.proc k).chan ∧
        ((s.proc k).adopt i).killed = (s.proc k).killed ∧
        ((s.proc k).adopt i).pc = (s.proc k).pc := by
      unfold LockProc.adopt
      split <;> exact ⟨rfl, rfl, rfl⟩
    obtain ⟨hchan', hkilled', ⟨j, hj⟩, hchildren⟩ := h.asleep k
      ⟨(hstate k).symm.trans hold.state, hfield.2.2.symm.trans hold.pc⟩
    have hwait := (hchan.trans hfield.1).trans hchan'
    refine ⟨hwait, (hkilled.trans hfield.2.1).trans hkilled', ⟨j, ?_⟩, fun j hj => ?_⟩
    · rw [hparent, hj, if_neg (by simpa using hki)]
    · rw [hparent] at hj
      split at hj
      · next hchild =>
        obtain rfl := Option.some.inj hj
        exact absurd hchild (horphans initproc hk hwait j)
      · by_cases hji : j = i
        · subst hji
          exact absurd hwait (hwoken k hk k hj)
        · rw [put_proc_of_ne hji, ne_eq, (hsame j).zombie, hstate]
          exact hchildren j hj

/-! ## Runs -/

theorem Family.kernelStep (h : Family s) (hi : (s.proc i).state = .running)
    (ht : kernelStep s i ok = some t) : Family t := by
  unfold Kernel.kernelStep at ht
  dsimp only at ht
  split at ht
  case h_1 => cases ht
  case h_9 =>
    obtain ⟨hinit, rfl⟩ : i ≠ initproc ∧ Kernel.kexit s i (s.proc i) = t := by simpa using ht
    exact h.kexit hi hinit
  all_goals obtain rfl := Option.some.inj ht
  case h_2 hpc => exact h.acquiresleep hi hpc
  case h_3 => exact h.put (.goto hi _)
  case h_4 => exact (h.put (.goto hi .ret)).of_same le_rfl fun j => .wake _ _
  case h_5 hpc => exact h.consoleread hi hpc
  case h_6 => exact h.kfork hi
  case h_7 => exact h.kwait hi
  case h_8 => exact (h.put (.goto hi .ret)).of_same (nextpid_kkill _ _).ge (same_kkill _ _)
  case h_10 => exact h.put (.goto hi _)

theorem Family.step {l : LockLabel} (h : Family s) (ht : lockStep s l = some t) : Family t := by
  cases l with
  | dispatch i | yield i =>
    simp only [lockStep, Option.ite_none_right_eq_some, Option.some.injEq] at ht
    obtain ⟨hi, rfl⟩ := ht
    exact h.put (.of_started rfl rfl (by simp [hi, ProcState.started]) rfl fun h => by
      simpa using h.state)
  | trap i tr =>
    simp only [lockStep, Option.ite_none_right_eq_some, Option.some.injEq] at ht
    obtain ⟨⟨hi, -⟩, rfl⟩ := ht
    refine h.put ?_
    cases tr with
    | syscall sc =>
      simp only [usertrap]
      split <;> exact .goto hi _
    | interrupt =>
      simp only [usertrap]
      split
      · exact .goto hi _
      · exact .refl _
    | fault =>
      exact .of_started rfl rfl (by simp [hi, ProcState.started])
        (by simp [usertrap, LockProc.goto, hi, ProcState.started])
        fun h => by simpa [usertrap, LockProc.goto, hi] using h.state
  | kernel i ok =>
    simp only [lockStep, Option.ite_none_right_eq_some] at ht
    exact h.kernelStep ht.1 ht.2
  | input line =>
    obtain rfl := Option.some.inj ht
    exact h.of_same le_rfl fun j => .wake _ _

theorem family_of_exec {ls : List LockLabel} (hs : exec lockStep .boot ls = some s) : Family s :=
  exec_invariant (I := Family) (fun _ _ _ h ht => h.step ht) .boot hs

/-- Every process but `init` has a parent that has not exited, so that there is always someone who
can wait for it. -/
theorem parent_started {ls : List LockLabel} (hs : exec lockStep .boot ls = some s)
    (hj : (s.proc j).state ≠ .unused) (hne : j ≠ initproc) :
    ∃ i, (s.proc j).parent = some i ∧ (s.proc i).state.started = true :=
  (family_of_exec hs).parent j hj hne

/-- A process is `init`, or its parent comes from `init`. -/
inductive FromInit (s : LockSys) : Fin nproc → Prop
  | init : FromInit s initproc
  | child {i j : Fin nproc} (hparent : (s.proc j).parent = some i) (hi : FromInit s i) :
    FromInit s j

/-- The parents form a tree with `init` at its root. -/
theorem fromInit_of_exec {ls : List LockLabel} (hs : exec lockStep .boot ls = some s)
    (hj : (s.proc j).state ≠ .unused) : FromInit s j := by
  have h := family_of_exec hs
  -- the induction is on the pid, since a parent is older than its children
  induction hn : (s.proc j).pid using Nat.strong_induction_on generalizing j with
  | _ n ih =>
    by_cases hinit : j = initproc
    · exact hinit ▸ .init
    · obtain ⟨i, hparent, hstarted⟩ := h.parent j hj hinit
      have hi : (s.proc i).state ≠ .unused := fun hu => by simp [hu, ProcState.started] at hstarted
      exact .child hparent (ih _ (hn ▸ h.older i j hparent) hi rfl)

/-- While a process sleeps in `wait` it has children and none of them has exited: no exit is missed,
neither that of a child nor that of an orphan that `init` has got. -/
theorem children_of_asleep {ls : List LockLabel} (hs : exec lockStep .boot ls = some s)
    (hi : (s.proc i).AsleepInWait) : (∃ j, (s.proc j).parent = some i) ∧
      ∀ j, (s.proc j).parent = some i → (s.proc j).state.started = true := by
  have h := family_of_exec hs
  obtain ⟨-, -, hchild, hchildren⟩ := h.asleep i hi
  refine ⟨hchild, fun j hj => ?_⟩
  obtain ⟨-, hnone⟩ | hz | hstarted := h.slots j
  · simp [hnone] at hj
  · exact absurd hz (hchildren j hj)
  · exact hstarted

/-- The child of `init` gets a child and exits; `init` has slept in `wait`, frees the one and sleeps
again until the other exits. -/
def orphanRun : List LockLabel :=
  [.dispatch 0, .trap 0 (.syscall .fork), .kernel 0 true, .kernel 0 true,
    .trap 0 (.syscall .wait), .kernel 0 true, .dispatch 1, .trap 1 (.syscall .fork),
    .kernel 1 true, .kernel 1 true, .trap 1 (.syscall .exit), .kernel 1 true, .dispatch 0,
    .kernel 0 true, .kernel 0 true, .trap 0 (.syscall .wait), .kernel 0 true]

theorem parent_started_orphanRun : ∃ s, exec lockStep .boot orphanRun = some s ∧
    (s.proc 1).state = .unused ∧
    ∃ i, (s.proc 2).parent = some i ∧ (s.proc i).state.started = true := by
  have hend : (exec lockStep .boot orphanRun).map
      (fun s => ((s.proc 1).state, (s.proc 2).state)) = some (.unused, .runnable) := by
    decide +kernel
  obtain ⟨s, hs, hend⟩ := Option.map_eq_some_iff.mp hend
  obtain ⟨hone, htwo⟩ := Prod.mk.inj hend
  exact ⟨s, hs, hone, parent_started hs (by simp [htwo]) (by decide)⟩

theorem fromInit_of_exec_orphanRun : ∃ s, exec lockStep .boot orphanRun = some s ∧
    FromInit s 2 := by
  have hend : (exec lockStep .boot orphanRun).map (fun s => (s.proc 2).state) = some .runnable := by
    decide +kernel
  obtain ⟨s, hs, hend⟩ := Option.map_eq_some_iff.mp hend
  exact ⟨s, hs, fromInit_of_exec hs (by simp [hend])⟩

theorem children_of_asleep_orphanRun : ∃ s, exec lockStep .boot orphanRun = some s ∧
    ∃ j, (s.proc j).parent = some 0 := by
  have hend : (exec lockStep .boot orphanRun).map
      (fun s => ((s.proc 0).state, (s.proc 0).pc)) = some (.sleeping, .waiting) := by
    decide +kernel
  obtain ⟨s, hs, hend⟩ := Option.map_eq_some_iff.mp hend
  obtain ⟨hstate, hpc⟩ := Prod.mk.inj hend
  exact ⟨s, hs, (children_of_asleep hs ⟨hstate, hpc⟩).1⟩

end

end LiberalOS.Kernel
