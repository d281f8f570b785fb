import LiberalOS.Kernel.Machine

/-!
# Equal priorities on one CPU

Every iteration of the outer loop of `scheduler()` starts its passes at slot 0 and ends with the
first dispatch. With equal priorities the RUNNABLE process of the lowest slot runs next, so that a
process waits for those in lower slots without bound, and never for one in a higher slot twice.

## Main results

* `waits_only_for_lower` — a process that stays RUNNABLE between two dispatches of another one has
  the higher slot.
* `yielding_init_starves_child` — and then there is no bound.
-/
namespace LiberalOS.Kernel
open Foundation

section
variable {n : Nat}

/-- All processes have the same priority. -/
def SamePriority (m : Machine n) : Prop :=
  ∀ p q, (m.proc p).state ≠ .unused → (m.proc q).state ≠ .unused →
    (m.proc p).priority = (m.proc q).priority

/-- The transition makes `p` current. -/
def Dispatch (p : Fin nproc) (m : Machine n) (_ : MachineLabel n) (t : Machine n) : Prop :=
  ∃ c, (m.cpu c).proc ≠ some p ∧ (t.cpu c).proc = some p

instance (p : Fin nproc) (m : Machine n) (a : MachineLabel n) (t : Machine n) :
    Decidable (Dispatch p m a t) :=
  inferInstanceAs (Decidable (∃ c, (m.cpu c).proc ≠ some p ∧ (t.cpu c).proc = some p))

/-! ## Changes of priority -/

/-- Where the priority of a slot can come from. -/
inductive PriorityStep (m : Machine n) (q : Fin nproc) : MachineLabel n → Int → Prop where
  | same (a : MachineLabel n) : PriorityStep m q a (m.proc q).priority
  | set (c : Fin n) (prio : Int) (hq : (m.cpu c).proc = some q) :
    PriorityStep m q (.setprio c prio) (max (-20) (min prio 19))
  | reset (a : MachineLabel n) (hq : (m.proc q).state ≠ .runnable) : PriorityStep m q a 0
  | inherit (a : MachineLabel n) (p : Fin nproc) (hq : (m.proc q).state ≠ .runnable) :
    PriorityStep m q a (m.proc p).priority

theorem SlotChange.priority {m : Machine n} {a : MachineLabel n} {i : Fin nproc} {p : Proc}
    (h : SlotChange m a i p) : PriorityStep m i a p.priority := by
  cases h with
  | wakeup i chan =>
    have hsame : ((m.proc i).wakeup chan).priority = (m.proc i).priority := by
      simp only [Proc.wakeup]
      split <;> rfl
    exact hsame ▸ .same _
  | kill i pid =>
    have hsame : ((m.proc i).kill pid).priority = (m.proc i).priority := by
      simp only [Proc.kill]
      split <;> rfl
    exact hsame ▸ .same _
  | fork c i p ok hunused =>
    cases ok with
    | false => exact .reset _ (by simp [hunused])
    | true => exact .inherit _ p (by simp [hunused])
  | forkParent c i p => exact .same _
  | forkReady i hused => exact .same _
  | wait c i hzombie => exact .reset _ (by simp [hzombie])
  | setprio c i prio hi => exact .set c prio hi

theorem machineStep_priority {m t : Machine n} {a : MachineLabel n}
    (h : machineStep m a = some t) (q : Fin nproc) : PriorityStep m q a (t.proc q).priority := by
  cases machineStep_does h with
  | @scan c _ hscan =>
    obtain ⟨-, ⟨p, pass, x, -, -, -, rfl⟩ | ⟨x, -, rfl⟩⟩ := Machine.scan_cases hscan
    · by_cases hq : q = p
      · subst hq
        simpa using PriorityStep.same (.scan c)
      · simpa [Machine.setProc_of_ne _ hq] using PriorityStep.same (.scan c)
    · exact .same _
  | interrupt => exact .same _
  | @leave _ c i p b _ _ _ _ hprio _ hpprio =>
    by_cases hq : q = i
    · subst hq
      simpa [Machine.sched, hpprio] using PriorityStep.same a
    · simpa [Machine.sched, Machine.setProc_of_ne _ hq, hprio] using PriorityStep.same a
  | @slot _ i p _ hslot hproc _ =>
    rw [hproc]
    by_cases hq : q = i
    · subst hq
      rw [Machine.setProc_self]
      exact hslot.priority
    · rw [Machine.setProc_of_ne _ hq]
      exact .same a

/-- While a process is RUNNABLE nobody changes its priority. -/
theorem Machine.Current.priority_eq {m t : Machine n} (h : m.Current) {a : MachineLabel n}
    (hstep : machineStep m a = some t) {q : Fin nproc} (hq : (m.proc q).state = .runnable) :
    (t.proc q).priority = (m.proc q).priority := by
  have hprio := machineStep_priority hstep q
  generalize (t.proc q).priority = prio at hprio ⊢
  cases hprio with
  | same => rfl
  | set c prio hcurrent =>
    have hrun := (h.running_iff q).mpr ⟨c, hcurrent⟩
    rw [hq] at hrun
    cases hrun
  | reset _ hno => exact absurd hq hno
  | inherit _ p hno => exact absurd hq hno

/-- Every slot has priority 0. -/
def AllZero (m : Machine n) : Prop := ∀ p, (m.proc p).priority = 0

/-- As long as no process calls `setprio`, all priorities are 0. -/
theorem samePriority_of_no_setprio {m : Machine n} (h : AllZero m) {acts : List (MachineLabel n)}
    (hacts : ∀ c prio, .setprio c prio ∉ acts) :
    Along machineStep (fun s _ _ => SamePriority s) m acts := by
  refine (along_true m acts).of_invariant_mem AllZero (fun s a t ha hs hstep _ => ⟨?_, ?_⟩) h
  · intro p q _ _
    rw [hs p, hs q]
  · intro q
    have hprio := machineStep_priority hstep q
    generalize (t.proc q).priority = prio at hprio ⊢
    cases hprio with
    | same => exact hs q
    | set c prio => exact absurd ha (hacts c prio)
    | reset => rfl
    | inherit _ p => exact hs p

theorem allZero_boot : AllZero (Machine.boot n) := by
  intro p
  simp only [Machine.boot]
  split <;> rfl

end

/-! ## The next in turn -/

/-- What the locals of a round say about a process `q` that waits with the common priority: the
passes do not get beyond its slot. -/
def Turn (q : Fin nproc) (prio : Int) (anyRunnable : Bool) (maxPrio : Int) : Phase → Prop
  | .pass1 i => (anyRunnable = true → maxPrio = prio) ∧ (q < i → anyRunnable = true)
  | .pass2 i => maxPrio = prio ∧ i ≤ q
  | .fallback _ => False
  | .dispatched _ _ | .wfi => True

theorem Turn.scan {q : Fin nproc} {r t : Round}
    (h : Turn q (r.proc q).priority r.anyRunnable r.maxPrio r.phase)
    (hq : (r.proc q).state = .runnable)
    (hsame : ∀ p, (r.proc p).state = .runnable → (r.proc p).priority = (r.proc q).priority)
    (hstep : scanStep r = some t) :
    Turn q (r.proc q).priority t.anyRunnable t.maxPrio t.phase := by
  have hlt := q.isLt
  obtain ⟨proc, anyRunnable, maxPrio, phase⟩ := r
  change (proc q).state = .runnable at hq
  cases phase with
  | pass1 i =>
    simp only [scanStep] at hstep
    simp only [Turn] at h
    by_cases hi : i < nproc
    · rw [dif_pos hi] at hstep
      split at hstep <;> obtain rfl := Option.some.inj hstep
      · next hmax => exact ⟨fun _ => hsame _ hmax.1, fun _ => rfl⟩
      · next hmax =>
        refine ⟨h.1, fun (hle : (q : Nat) < i + 1) => ?_⟩
        by_cases hqi : (q : Nat) = i
        · obtain rfl : q = ⟨i, hi⟩ := Fin.ext hqi
          simp only [hq, true_and, not_or, Bool.not_eq_false] at hmax
          exact hmax.1
        · exact h.2 (by omega)
    · have hany := h.2 (by omega)
      rw [dif_neg hi, if_pos hany] at hstep
      obtain rfl := Option.some.inj hstep
      exact ⟨h.1 hany, Nat.zero_le _⟩
  | pass2 i =>
    simp only [scanStep] at hstep
    simp only [Turn] at h
    by_cases hi : i < nproc
    · rw [dif_pos hi] at hstep
      split at hstep <;> obtain rfl := Option.some.inj hstep
      · trivial
      · next hidle =>
        refine ⟨h.1, Nat.lt_of_le_of_ne h.2 fun hiq => hidle ?_⟩
        obtain rfl : q = ⟨i, hi⟩ := Fin.ext hiq.symm
        exact ⟨hq, h.1.symm⟩
    · omega
  | fallback i => exact h.elim
  | dispatched p pass => simp [scanStep] at hstep
  | wfi => simp [scanStep] at hstep

/-- A dispatch is of the slot the pass has come to. -/
theorem scanStep_dispatched {r t : Round} {p : Fin nproc} {pass : Pass}
    (h : scanStep r = some t) (hphase : t.phase = .dispatched p pass) :
    r.phase = .pass2 p ∨ r.phase = .fallback p := by
  obtain ⟨proc, anyRunnable, maxPrio, phase⟩ := r
  cases phase with
  | pass1 i =>
    simp only [scanStep] at h
    split at h
    · split at h <;> obtain rfl := Option.some.inj h <;> simp at hphase
    · split at h <;> obtain rfl := Option.some.inj h <;> simp at hphase
  | pass2 i =>
    simp only [scanStep] at h
    split at h
    · split at h <;> obtain rfl := Option.some.inj h <;> simp [Round.dispatch] at hphase
      exact Or.inl (by simp [← hphase.1])
    · obtain rfl := Option.some.inj h
      simp at hphase
  | fallback i =>
    simp only [scanStep] at h
    split at h
    · split at h <;> obtain rfl := Option.some.inj h <;> simp [Round.dispatch] at hphase
      exact Or.inr (by simp [← hphase.1])
    · obtain rfl := Option.some.inj h
      simp at hphase
  | dispatched p pass => simp [scanStep] at h
  | wfi => simp [scanStep] at h

/-- The round of the CPU has not passed the slot of `q`. -/
def Machine.Turn (m : Machine 1) (q : Fin nproc) : Prop :=
  Kernel.Turn q (m.proc q).priority (m.cpu 0).anyRunnable (m.cpu 0).maxPrio (m.cpu 0).phase

theorem Machine.turn_newRound {m : Machine 1} {q : Fin nproc} (h : m.cpu 0 = .newRound) :
    m.Turn q := by
  rw [Machine.Turn, h]
  exact ⟨by simp [Cpu.newRound], fun hneg => absurd hneg (Nat.not_lt_zero _)⟩

theorem Machine.Turn.step {m t : Machine 1} {q : Fin nproc} (h : m.Turn q) (hcur : m.Current)
    (hsame : SamePriority m) (hq : (m.proc q).state = .runnable) {a : MachineLabel 1}
    (hstep : machineStep m a = some t) : t.Turn q := by
  have hprio := hcur.priority_eq hstep hq
  rcases machineStep_cases hstep with ⟨c, -, hscan⟩ | ⟨c, -, -, rfl⟩ | ⟨c, -, i, -, -, -, hcpu⟩ |
    ⟨i, -, -, hcpu⟩
  · obtain rfl : c = 0 := Subsingleton.elim _ _
    obtain ⟨r, hr, hany, hmax, hphase⟩ := Machine.scan_round hscan
    rw [Machine.Turn, hprio, hany, hmax, hphase]
    have hround : ∀ p, ((m.round 0).proc p).state = .runnable →
        ((m.round 0).proc p).priority = ((m.round 0).proc q).priority := by
      intro p hp
      have hlive : (m.proc p).state = .runnable := hp
      exact hsame p q (by simp [hlive]) (by simp [hq])
    exact @Kernel.Turn.scan q (m.round 0) r h hq hround hr
  · obtain rfl : c = 0 := Subsingleton.elim _ _
    exact Machine.turn_newRound (Machine.setCpu_self _ _ _)
  · obtain rfl : c = 0 := Subsingleton.elim _ _
    exact Machine.turn_newRound (by rw [hcpu, Machine.setCpu_self])
  · rw [Machine.Turn, hprio, hcpu]
    exact h

/-- With equal priorities on one CPU: a process that stays RUNNABLE, and so undispatched, from one
dispatch of `p` to another is in a higher slot of the table than `p`. -/
theorem waits_only_for_lower {before mid : List (MachineLabel 1)} {m₀ m₁ m₂ m₃ : Machine 1}
    {a b : MachineLabel 1} {p q : Fin nproc}
    (hbefore : exec machineStep (.boot 1) before = some m₀)
    (ha : machineStep m₀ a = some m₁) (hfirst : Dispatch p m₀ a m₁)
    (hmid : exec machineStep m₁ mid = some m₂)
    (hb : machineStep m₂ b = some m₃) (hsecond : Dispatch p m₂ b m₃)
    (hsame : Along machineStep (fun s _ _ => SamePriority s) m₁ (mid ++ [b])) (hne : q ≠ p)
    (hq : RunnableAlong m₁ (mid ++ [b]) q) : p < q := by
  have hcur₁ : m₁.Current := (Machine.Current.of_exec hbefore).step ha
  obtain ⟨hsamemid, -⟩ := along_append.mp hsame
  obtain ⟨hqmid, hqlast⟩ := along_append.mp hq
  have hturn₁ : m₁.Turn q := by
    obtain ⟨c, -, hc⟩ := hfirst
    obtain rfl : c = 0 := Subsingleton.elim _ _
    obtain ⟨pass, hphase⟩ := hcur₁.phase 0 p hc
    rw [Machine.Turn, hphase]
    trivial
  have hend : m₂.Current ∧ m₂.Turn q := by
    refine exec_invariant_of_along (I := fun m : Machine 1 => m.Current ∧ m.Turn q) ?_
      ⟨hcur₁, hturn₁⟩ hmid (hsamemid.and hqmid)
    rintro s l t - ⟨hcur, hturn⟩ hstep ⟨hs, hrunnable⟩
    exact ⟨hcur.step hstep, hturn.step hcur hs hrunnable hstep⟩
  -- the second dispatch comes from a scan step at the slot of `p`
  obtain ⟨c, hbefore', hafter⟩ := hsecond
  obtain rfl : c = 0 := Subsingleton.elim _ _
  obtain ⟨pass, hphase⟩ := (hend.1.step hb).phase 0 p hafter
  obtain ⟨r, hr, -, -, hrphase⟩ := Machine.scan_round (Machine.scan_of_dispatch hb hbefore' hafter)
  have hturn := hend.2
  rw [hrphase] at hphase
  rw [Machine.Turn] at hturn
  rcases scanStep_dispatched hr hphase with hat | hat
  · rw [show (m₂.cpu 0).phase = .pass2 p from hat] at hturn
    exact lt_of_le_of_ne (Fin.le_def.mpr hturn.2) hne.symm
  · rw [show (m₂.cpu 0).phase = .fallback p from hat] at hturn
    exact hturn.elim

/-- Init forks a child into slot 1 and gives up the CPU. -/
def forkedOnce : List (MachineLabel 1) :=
  List.replicate 66 (.scan 0) ++ [.fork 0 1 true, .forkParent 0 1, .forkReady 1, .yield 0] ++
    List.replicate 65 (.scan 0)

/-- Init yields, and the next round comes to its dispatch. -/
def yieldRound : List (MachineLabel 1) := .yield 0 :: List.replicate 65 (.scan 0)

/-- Init is dispatched, yields and is dispatched again, and its child is RUNNABLE all the time. -/
theorem forkedOnce_yieldRound : ∃ m₀ m₁ m₂ m₃, exec machineStep (.boot 1) forkedOnce = some m₀ ∧
    machineStep m₀ (.scan 0) = some m₁ ∧ Dispatch 0 m₀ (.scan 0) m₁ ∧
    exec machineStep m₁ yieldRound = some m₂ ∧
    Along machineStep (fun s l t => ¬ Dispatch 0 s l t) m₁ yieldRound ∧
    machineStep m₂ (.scan 0) = some m₃ ∧ Dispatch 0 m₂ (.scan 0) m₃ ∧
    RunnableAlong m₁ (yieldRound ++ [.scan 0]) 1 := by
  have heval : ((exec machineStep (.boot 1) forkedOnce).any fun m₀ =>
      (machineStep m₀ (.scan 0)).any fun m₁ => decide (Dispatch 0 m₀ (.scan 0) m₁) &&
        ((exec machineStep m₁ yieldRound).any fun m₂ => (machineStep m₂ (.scan 0)).any fun m₃ =>
          decide (Dispatch 0 m₂ (.scan 0) m₃)) &&
        decide (Along machineStep (fun s l t => ¬ Dispatch 0 s l t) m₁ yieldRound) &&
        decide (RunnableAlong m₁ (yieldRound ++ [.scan 0]) 1)) = true := by decide +kernel
  simp only [Option.any_eq_true, Bool.and_eq_true, decide_eq_true_eq] at heval
  obtain ⟨m₀, hm₀, m₁, hm₁, ⟨⟨hfirst, m₂, hm₂, m₃, hm₃, hsecond⟩, hcons⟩, hq⟩ := heval
  exact ⟨m₀, m₁, m₂, m₃, hm₀, hm₁, hfirst, hm₂, hcons, hm₃, hsecond, hq⟩

theorem no_setprio_yieldRound (c : Fin 1) (prio : Int) :
    MachineLabel.setprio c prio ∉ forkedOnce ++ .scan 0 :: (yieldRound ++ [.scan 0]) := by
  simp only [forkedOnce, yieldRound, List.mem_append, List.mem_cons, List.mem_replicate,
    List.not_mem_nil]
  simp

theorem forkedOnce_waits_only_for_lower : ∃ m₀ m₁ m₂ m₃,
    exec machineStep (.boot 1) forkedOnce = some m₀ ∧
    machineStep m₀ (.scan 0) = some m₁ ∧ Dispatch 0 m₀ (.scan 0) m₁ ∧
    exec machineStep m₁ yieldRound = some m₂ ∧
    machineStep m₂ (.scan 0) = some m₃ ∧ Dispatch 0 m₂ (.scan 0) m₃ ∧
    RunnableAlong m₁ (yieldRound ++ [.scan 0]) 1 ∧ (0 : Fin nproc) < 1 := by
  obtain ⟨m₀, m₁, m₂, m₃, hm₀, hm₁, hfirst, hm₂, -, hm₃, hsecond, hq⟩ := forkedOnce_yieldRound
  have hsame := samePriority_of_no_setprio allZero_boot no_setprio_yieldRound
  have hrest : Along machineStep (fun s _ _ => SamePriority s) m₁ (yieldRound ++ [.scan 0]) :=
    ((along_append.mp hsame).2 m₀ hm₀ m₁ hm₁).2
  exact ⟨m₀, m₁, m₂, m₃, hm₀, hm₁, hfirst, hm₂, hm₃, hsecond, hq,
    waits_only_for_lower hm₀ hm₁ hfirst hm₂ hm₃ hsecond hrest (by decide) hq⟩

/-- Init yields again and again, and the child in slot 1 does not get the CPU. -/
theorem yielding_init_starves_child :
    ¬ ∀ (before mid : List (MachineLabel 1)) (m₀ m₁ m₂ m₃ : Machine 1) (a b : MachineLabel 1)
        (p q : Fin nproc), exec machineStep (.boot 1) before = some m₀ →
      machineStep m₀ a = some m₁ → Dispatch p m₀ a m₁ → exec machineStep m₁ mid = some m₂ →
      Along machineStep (fun s l t => ¬ Dispatch p s l t) m₁ mid →
      machineStep m₂ b = some m₃ → Dispatch p m₂ b m₃ →
      Along machineStep (fun s _ _ => SamePriority s) (.boot 1) (before ++ a :: (mid ++ [b])) →
      q ≠ p → ¬ RunnableAlong m₁ (mid ++ [b]) q := by
  intro h
  obtain ⟨m₀, m₁, m₂, m₃, hm₀, hm₁, hfirst, hm₂, hcons, hm₃, hsecond, hq⟩ := forkedOnce_yieldRound
  exact h forkedOnce yieldRound m₀ m₁ m₂ m₃ (.scan 0) (.scan 0) 0 1 hm₀ hm₁ hfirst hm₂ hcons hm₃
    hsecond (samePriority_of_no_setprio allZero_boot no_setprio_yieldRound) (by decide) hq

end LiberalOS.Kernel
