import Mathlib.Algebra.Ring.Nat
import Mathlib.Data.Fintype.Basic
import LiberalOS.Foundation.Execution

/-!
# Selection rounds of the scheduler

One iteration of the outer loop of `scheduler()` on one CPU, as the steps that are atomic under the
process locks: each scan step looks at one table slot. Between any two of them another CPU or an
interrupt may change any process; only the priority of a process that is not running stays.

## Main results

* `dispatched_priority` — what the process a round dispatches has over every process that stays
  RUNNABLE during the round, by the pass it is dispatched from.
-/
namespace LiberalOS.Kernel
open Foundation

abbrev nproc : Nat := 64

instance : NeZero nproc := ⟨Nat.succ_ne_zero 63⟩

inductive ProcState where
  | unused | used | sleeping | runnable | running | zombie
  deriving DecidableEq

/-- The fields of `struct proc` the scheduler reads. -/
structure SchedProc where
  state : ProcState
  priority : Int
  deriving DecidableEq

/-- The pass a process is dispatched from. -/
inductive Pass where
  | maxPriority | fallback
  deriving DecidableEq

/-- Where the round stands: the next slot of a pass, the `swtch` to a process, or `wfi`. -/
inductive Phase where
  | pass1 (i : Nat)
  | pass2 (i : Nat)
  | fallback (i : Nat)
  | dispatched (p : Fin nproc) (pass : Pass)
  | wfi
  deriving DecidableEq

/-- The table and the locals of the round. -/
structure Round where
  proc : Fin nproc → SchedProc
  anyRunnable : Bool
  maxPrio : Int
  phase : Phase

def Round.start (proc : Fin nproc → SchedProc) : Round := ⟨proc, false, 0, .pass1 0⟩

/-- `p->state = RUNNING` and the switch to `p`. -/
def Round.dispatch (r : Round) (p : Fin nproc) (pass : Pass) : Round :=
  { r with
    proc := Function.update r.proc p { r.proc p with state := .running }
    phase := .dispatched p pass }

/-- The next scan step; a dispatch or `wfi` ends the round. -/
def scanStep (r : Round) : Option Round :=
  match r.phase with
  | .pass1 i =>
    if hi : i < nproc then
      let p := r.proc ⟨i, hi⟩
      if p.state = .runnable ∧ (r.anyRunnable = false ∨ p.priority > r.maxPrio) then
        some { r with maxPrio := p.priority, anyRunnable := true, phase := .pass1 (i + 1) }
      else some { r with phase := .pass1 (i + 1) }
    else if r.anyRunnable then some { r with phase := .pass2 0 }
    else some { r with phase := .wfi }
  | .pass2 i =>
    if hi : i < nproc then
      let p := r.proc ⟨i, hi⟩
      if p.state = .runnable ∧ p.priority = r.maxPrio then
        some (r.dispatch ⟨i, hi⟩ .maxPriority)
      else some { r with phase := .pass2 (i + 1) }
    else some { r with phase := .fallback 0 }
  | .fallback i =>
    if hi : i < nproc then
      if (r.proc ⟨i, hi⟩).state = .runnable then some (r.dispatch ⟨i, hi⟩ .fallback)
      else some { r with phase := .fallback (i + 1) }
    else some { r with phase := .wfi }
  | .dispatched _ _ | .wfi => none

/-- A scan step of this CPU, or a change of one process by another CPU or an interrupt. -/
inductive RoundLabel where
  | scan
  | env (p : Fin nproc) (new : SchedProc)

/-- Changes come between scan steps, and leave the priority of a process that is not running. -/
def roundStep (r : Round) : RoundLabel → Option Round
  | .scan => scanStep r
  | .env p new =>
    match r.phase with
    | .dispatched _ _ | .wfi => none
    | _ =>
      if (r.proc p).state = .running ∨ new.priority = (r.proc p).priority then
        some { r with proc := Function.update r.proc p new }
      else none

/-! ## Statement -/

/-- `j` is RUNNABLE when the transition starts. -/
def RunnableBefore (j : Fin nproc) (r : Round) (_ : RoundLabel) (_ : Round) : Prop :=
  (r.proc j).state = .runnable

/-- `j` is RUNNABLE in every state of the round up to the dispatch. -/
def StaysRunnable (proc : Fin nproc → SchedProc) (labels : List RoundLabel) (j : Fin nproc) :
    Prop := Along roundStep (RunnableBefore j) (.start proc) labels

instance (proc : Fin nproc → SchedProc) (labels : List RoundLabel) (j : Fin nproc) :
    Decidable (StaysRunnable proc labels j) :=
  have : ∀ r l t, Decidable (RunnableBefore j r l t) := fun r _ _ =>
    inferInstanceAs (Decidable ((r.proc j).state = .runnable))
  inferInstanceAs (Decidable (Along roundStep (RunnableBefore j) (.start proc) labels))

/-! ## The invariant of a process that stays RUNNABLE -/

/-- What the locals of the round say about `j`, and what the dispatched process has over it. -/
def Outranked (j : Fin nproc) (r : Round) : Prop :=
  match r.phase with
  | .pass1 i => j < i → r.anyRunnable = true ∧ (r.proc j).priority ≤ r.maxPrio
  | .pass2 i => (r.proc j).priority ≤ r.maxPrio ∧ (j < i → (r.proc j).priority ≠ r.maxPrio)
  | .fallback i => (r.proc j).priority < r.maxPrio ∧ i ≤ j
  | .dispatched p .maxPriority =>
    (r.proc p).priority = r.maxPrio ∧ (r.proc j).priority ≤ r.maxPrio
  | .dispatched p .fallback => (r.proc j).priority < r.maxPrio ∧ p ≤ j
  | .wfi => False

theorem Round.dispatch_priority (r : Round) (p : Fin nproc) (pass : Pass) (j : Fin nproc) :
    ((r.dispatch p pass).proc j).priority = (r.proc j).priority := by
  by_cases h : j = p
  · subst h
    simp [Round.dispatch]
  · simp [Round.dispatch, Function.update_of_ne h]

theorem Outranked.scan {j : Fin nproc} {r t : Round} (h : Outranked j r)
    (hj : (r.proc j).state = .runnable) (hstep : scanStep r = some t) : Outranked j t := by
  have hlt := j.isLt
  obtain ⟨proc, anyRunnable, maxPrio, phase⟩ := r
  change (proc j).state = .runnable at hj
  cases phase with
  | pass1 i =>
    simp only [scanStep] at hstep
    simp only [Outranked] at h
    by_cases hi : i < nproc
    · rw [dif_pos hi] at hstep
      split at hstep <;> obtain rfl := Option.some.inj hstep
      · -- slot `i` raises the maximum
        next hmax =>
        intro (hle : (j : Nat) < i + 1)
        refine ⟨rfl, ?_⟩
        by_cases hij : (j : Nat) = i
        · obtain rfl : j = ⟨i, hi⟩ := Fin.ext hij
          exact le_rfl
        · obtain ⟨hany, hprio⟩ := h (by omega)
          rcases hmax.2 with hno | hgt
          · simp [hany] at hno
          · exact hprio.trans hgt.le
      · next hmax =>
        intro (hle : (j : Nat) < i + 1)
        by_cases hij : (j : Nat) = i
        · obtain rfl : j = ⟨i, hi⟩ := Fin.ext hij
          simp only [hj, true_and, not_or, not_lt, Bool.not_eq_false] at hmax
          exact hmax
        · exact h (by omega)
    · rw [dif_neg hi] at hstep
      obtain ⟨hany, hprio⟩ := h (by omega)
      simp only [hany, if_true] at hstep
      obtain rfl := Option.some.inj hstep
      exact ⟨hprio, fun hneg => absurd hneg (Nat.not_lt_zero _)⟩
  | pass2 i =>
    simp only [scanStep] at hstep
    simp only [Outranked] at h
    obtain ⟨hle, hne⟩ := h
    by_cases hi : i < nproc
    · rw [dif_pos hi] at hstep
      split at hstep <;> obtain rfl := Option.some.inj hstep
      · next hmax =>
        refine ⟨?_, ?_⟩
        · exact (Round.dispatch_priority _ _ _ _).trans hmax.2
        · exact (Round.dispatch_priority _ _ _ _).trans_le hle
      · next hmax =>
        refine ⟨hle, fun (hlt' : (j : Nat) < i + 1) => ?_⟩
        by_cases hij : (j : Nat) = i
        · obtain rfl : j = ⟨i, hi⟩ := Fin.ext hij
          exact fun heq => hmax ⟨hj, heq⟩
        · exact hne (by omega)
    · rw [dif_neg hi] at hstep
      obtain rfl := Option.some.inj hstep
      exact ⟨lt_of_le_of_ne hle (hne (by omega)), Nat.zero_le _⟩
  | fallback i =>
    simp only [scanStep] at hstep
    simp only [Outranked] at h
    obtain ⟨hlow, hle⟩ := h
    by_cases hi : i < nproc
    · rw [dif_pos hi] at hstep
      split at hstep <;> obtain rfl := Option.some.inj hstep
      · exact ⟨(Round.dispatch_priority _ _ _ _).trans_lt hlow, hle⟩
      · next hidle =>
        refine ⟨hlow, Nat.lt_of_le_of_ne hle fun hij => hidle ?_⟩
        obtain rfl : j = ⟨i, hi⟩ := Fin.ext hij.symm
        exact hj
    · omega
  | dispatched p pass => simp [scanStep] at hstep
  | wfi => exact h.elim

/-- The environment cannot change the priority of `j` while it is RUNNABLE. -/
theorem Outranked.env {j : Fin nproc} {r t : Round} (h : Outranked j r)
    (hj : (r.proc j).state = .runnable) {p : Fin nproc} {new : SchedProc}
    (hstep : roundStep r (.env p new) = some t) : Outranked j t := by
  have hframe : ∀ q, (r.proc p).state = .running ∨ new.priority = (r.proc p).priority →
      q = j → (Function.update r.proc p new q).priority = (r.proc q).priority := by
    rintro q hallowed rfl
    by_cases hpq : q = p
    · subst hpq
      simpa [hj] using hallowed
    · rw [Function.update_of_ne hpq]
  obtain ⟨proc, anyRunnable, maxPrio, phase⟩ := r
  cases phase with
  | dispatched q pass => simp [roundStep] at hstep
  | wfi => exact h.elim
  | pass1 i | pass2 i | fallback i =>
    simp only [roundStep] at hstep
    split at hstep
    · next hallowed =>
      obtain rfl := Option.some.inj hstep
      simp only [Outranked] at h ⊢
      rwa [hframe j hallowed rfl]
    · cases hstep

theorem Outranked.of_staysRunnable {proc : Fin nproc → SchedProc} {labels : List RoundLabel}
    {r : Round} {j : Fin nproc} (hrun : exec roundStep (.start proc) labels = some r)
    (hj : StaysRunnable proc labels j) : Outranked j r := by
  have hstart : Outranked j (.start proc) := fun h => absurd h (Nat.not_lt_zero _)
  refine exec_invariant_of_along ?_ hstart hrun hj
  intro s l t _ hs hstep hrunnable
  cases l with
  | scan => exact hs.scan hrunnable hstep
  | env p new => exact hs.env hrunnable hstep

/-- In every round that dispatches, for every process that stays RUNNABLE: the max-priority pass
dispatches a process of at least its priority, and the fallback pass is entered only when its
priority is below the maximum pass 1 found, and dispatches the first RUNNABLE process it meets. -/
theorem dispatched_priority (proc : Fin nproc → SchedProc) (labels : List RoundLabel) (r : Round)
    (p j : Fin nproc) (pass : Pass) (hrun : exec roundStep (.start proc) labels = some r)
    (hphase : r.phase = .dispatched p pass) (hj : StaysRunnable proc labels j) :
    match pass with
    | .maxPriority => (r.proc j).priority ≤ (r.proc p).priority
    | .fallback => (r.proc j).priority < r.maxPrio ∧ p ≤ j := by
  have h := Outranked.of_staysRunnable hrun hj
  rw [Outranked, hphase] at h
  cases pass with
  | maxPriority => exact h.2.trans h.1.ge
  | fallback => exact h

/-- Three RUNNABLE processes with priorities 10, 1 and 5. -/
def threeReady : Fin nproc → SchedProc := fun i =>
  if i = 0 then ⟨.runnable, 10⟩ else if i = 1 then ⟨.runnable, 1⟩
  else if i = 2 then ⟨.runnable, 5⟩ else ⟨.unused, 0⟩

/-- Another CPU claims the process of priority 10 between the passes. -/
def claimedBetweenPasses : List RoundLabel :=
  List.replicate 65 .scan ++ .env 0 ⟨.running, 10⟩ :: List.replicate 67 .scan

theorem claimedBetweenPasses_dispatched_priority :
    ∃ r, exec roundStep (.start threeReady) claimedBetweenPasses = some r ∧
      r.phase = .dispatched 1 .fallback ∧ (r.proc 2).priority < r.maxPrio ∧
        (1 : Fin nproc) ≤ 2 := by
  have hphase : (exec roundStep (.start threeReady) claimedBetweenPasses).map (·.phase) =
      some (.dispatched 1 .fallback) := by decide +kernel
  obtain ⟨r, hr, hr'⟩ := Option.map_eq_some_iff.mp hphase
  exact ⟨r, hr, hr', dispatched_priority threeReady claimedBetweenPasses r 1 2 .fallback hr hr'
    (by decide +kernel)⟩

/-- The fallback pass then dispatches priority 1 while priority 5 stays RUNNABLE. -/
theorem fallback_dispatches_lower_priority :
    ¬ ∀ (proc : Fin nproc → SchedProc) (labels : List RoundLabel) (r : Round) (p j : Fin nproc)
        (pass : Pass), exec roundStep (.start proc) labels = some r →
      r.phase = .dispatched p pass → StaysRunnable proc labels j →
      (r.proc j).priority ≤ (r.proc p).priority := by
  intro h
  have hend : (exec roundStep (.start threeReady) claimedBetweenPasses).map
      (fun r => (r.phase, (r.proc 1).priority, (r.proc 2).priority)) =
      some (.dispatched 1 .fallback, 1, 5) := by decide +kernel
  obtain ⟨r, hr, hr'⟩ := Option.map_eq_some_iff.mp hend
  simp only [Prod.mk.injEq] at hr'
  obtain ⟨hphase, hp1, hp2⟩ := hr'
  have hle := h threeReady claimedBetweenPasses r 1 2 .fallback hr hphase (by decide +kernel)
  omega

end LiberalOS.Kernel
