import LiberalOS.Kernel.PipeEnds

/-!
# Programs that make pipes and processes

A user program is what it does between its calls: the next call and what follows each result. The
kernel runs the programs of all processes at once. A process may be killed at any time, and then it
exits instead of its next call. Of some processes nothing is known; a process with a role is known
not to make descriptors for pipes any more.

`Safe` is the weakest precondition of a program on the view that its process has, for a condition on
the roles it ends in. It is enough to prove it for one process, as if it ran alone: `Sys.Inv` holds
in every run. A group of processes first makes its `n` pipes and forks then; `made` are the pages of
these pipes.
-/
namespace LiberalOS.Kernel.Files
open Foundation

/-! ## Programs -/

/-- A call as a program makes it. -/
inductive UserCall where
  | open
  | pipe
  | dup (fd : Int)
  | close (fd : Int)
  | fork
  deriving DecidableEq

/-- A program makes a call, is in one, has a role, was killed before it had one, or is another
program. -/
inductive Prog (ρ : Type) where
  | call (c : UserCall) (k : List Int → Prog ρ)
  | await (k : List Int → Prog ρ)
  | role (r : ρ)
  | killed
  | other

def UserCall.permits : UserCall → Call → Bool
  | .open, .open _ _ _ => true
  | .pipe, .pipe => true
  | .dup fd, .dup fd' => fd = fd'
  | .close fd, .close fd' => fd = fd'
  | .fork, .fork _ pid => 0 < pid
  | _, _ => false

/-- A process with a role opens files and exits. -/
def Call.plain : Call → Bool
  | .open _ _ _ | .exit => true
  | _ => false

variable {ρ : Type}

namespace Prog

def isOther : Prog ρ → Bool
  | .other => true
  | _ => false

/-- The program after it has made a call, and that of a child that the call makes. A process that
was killed exits when it is back from the call it was in, or has not made the next one yet. -/
def after : Prog ρ → Call → Option (Prog ρ)
  | .call u k, c =>
    if u.permits c then some (.await k) else if c = .exit then some .killed else none
  | .await _, c => if c = .exit then some .killed else none
  | .role r, c => if c.plain then some (.role r) else none
  | .killed, _ => none
  | .other, _ => some .other

/-- What a program does first when all goes well, on a process with this view, and what it may do
when a call fails; in the end `post` holds. -/
def Safe (n : Nat) (post : List Nat → ρ → View → Prop) : Prog ρ → List Nat → View → Prop
  | .call .open k, made, v =>
    Safe n post (k [-1]) made v ∧ ∀ fd, v.free = some fd →
      Safe n post (k [(fd.val : Int)]) made (v.set fd (some none))
  | .call .pipe k, made, v =>
    made.length < n ∧ Safe n post (k [-1]) made v ∧ ∀ pi fd0 fd1, ¬v.Has pi → v.free = some fd0 →
      (v.set fd0 (some (some (pi, false)))).free = some fd1 →
      Safe n post (k [0, (fd0.val : Int), (fd1.val : Int)]) (made ++ [pi])
        ((v.set fd0 (some (some (pi, false)))).set fd1 (some (some (pi, true))))
  | .call (.dup fd) k, made, v =>
    match v.get fd, v.free with
    | some (_, x), some i => Safe n post (k [(i.val : Int)]) made (v.set i (some x))
    | _, _ => Safe n post (k [-1]) made v
  | .call (.close fd) k, made, v =>
    match v.get fd with
    | some (i, _) => Safe n post (k [0]) made (v.set i none)
    | none => Safe n post (k [-1]) made v
  | .call .fork k, made, v =>
    made.length = n ∧ Safe n post (k [-1]) made v ∧ Safe n post (k [0]) made v ∧
      ∀ pid : Nat, 0 < pid → Safe n post (k [(pid : Int)]) made v
  | .role r, made, v => post made r v
  | .await _, _, _ => False
  | .killed, _, _ => False
  | .other, _, _ => False

end Prog

/-! ## The system -/

structure Sys (ρ : Type) where
  files : State
  prog : Fin nproc → Prog ρ
  made : List Nat

/-- A step of the kernel; `open` or `fork` fails; a process is back from a call. -/
inductive SysLabel where
  | kernel (l : Label)
  | fail (p : Fin nproc)
  | resume (p : Fin nproc)
  deriving DecidableEq

/-- The process has just made a pipe. -/
def madePipe (s t : State) (p : Fin nproc) : Prop :=
  (s.proc p).task.isPipe ∧ (t.proc p).task = .none ∧ (t.proc p).result ≠ [-1]

instance (s t : State) (p : Fin nproc) : Decidable (madePipe s t p) :=
  inferInstanceAs (Decidable (_ ∧ _ ∧ _))

def sysStep (s : Sys ρ) : SysLabel → Option (Sys ρ)
  | .kernel (.call p c) =>
    ((s.prog p).after c).bind fun k => (step s.files (.call p c)).map fun t =>
      let prog := Function.update s.prog p k
      { s with
        files := t
        prog := match c with
          | .fork np _ => Function.update prog np k
          | _ => prog }
  | .kernel (.work p page copyout) => (step s.files (.work p page copyout)).map fun t =>
    { s with
      files := t
      made := if madePipe s.files t p ∧ (s.prog p).isOther = false then s.made ++ page.toList
        else s.made }
  | .kernel (.reap p) => (step s.files (.reap p)).map fun t => { s with files := t }
  | .fail p =>
    match s.prog p with
    | .call .open k | .call .fork k =>
      if (s.files.proc p).life = .alive ∧ (s.files.proc p).idle then
        some { s with prog := Function.update s.prog p (k [-1]) }
      else none
    | _ => none
  | .resume p =>
    match s.prog p with
    | .await k =>
      if (s.files.proc p).life = .alive ∧ (s.files.proc p).idle then
        some { s with prog := Function.update s.prog p (k (s.files.proc p).result) }
      else none
    | _ => none

/-! ## The invariant -/

/-- What holds of a process of the group, by where it is. -/
def Local (n : Nat) (post weak : List Nat → ρ → View → Prop) (s : Sys ρ) (p : Fin nproc) : Prop :=
  match s.prog p with
  | .call c k => (s.files.proc p).task = .none ∧
      (Prog.call c k).Safe n post s.made (s.files.view p)
  | .await k =>
    match (s.files.proc p).task with
    | .none => (k (s.files.proc p).result).Safe n post s.made (s.files.view p)
    | .pipe1 _ | .pipe2 _ _ => (Prog.call .pipe k).Safe n post s.made (s.files.view p)
    | .forkCopy np _ => s.made.length = n ∧
        (k (s.files.proc p).result).Safe n post s.made (s.files.view p) ∧
        (k [0]).Safe n post s.made (s.files.view p) ∧ s.prog np = .await k
    | .exitClose _ => False
  | .role r =>
    match (s.files.proc p).task with
    | .none => post s.made r (s.files.view p)
    | .exitClose _ => weak s.made r (s.files.view p)
    | _ => False
  | .killed => ∃ fd, (s.files.proc p).task = .exitClose fd
  | .other => ∀ np i, (s.files.proc p).task = .forkCopy np i → (s.prog np).isOther

/-- The condition on a role stands when its process opens files; while it exits, a weaker one. -/
structure Stable (post weak : List Nat → ρ → View → Prop) : Prop where
  opens : ∀ made r v fd, post made r v → v.free = some fd → post made r (v.set fd (some none))
  weakens : ∀ made r v, post made r v → weak made r v
  closes : ∀ made r v v', weak made r v → (∀ i, v' i = v i ∨ v' i = none) → weak made r v'

structure Sys.Inv (n : Nat) (post weak : List Nat → ρ → View → Prop) (s : Sys ρ) : Prop where
  files : s.files.Inv
  safe : ∀ p, (s.files.proc p).life = .alive → Local n post weak s p
  one : ∀ p q, p ≠ q → (s.prog p).isOther = false → (s.prog q).isOther = false → s.made.length = n
  apart : ∀ p q, (s.prog p).isOther → (s.prog q).isOther = false → ∀ pi ∈ s.made,
    ¬((s.files.view p).Has pi ∧ (s.files.view q).Has pi)

section
variable {n : Nat} {post weak : List Nat → ρ → View → Prop} {s u : Sys ρ} {t : State} {l : Label}
  {p q np : Fin nproc}

theorem Prog.Safe.not_other {k : Prog ρ} {made : List Nat} {v : View}
    (h : k.Safe n post made v) : k.isOther = false := by
  cases k <;> simp_all [Prog.Safe, Prog.isOther]

/-- A child is on the side of its parent. -/
theorem Local.side {i : Nat} (h : Local n post weak s p)
    (htask : (s.files.proc p).task = .forkCopy np i) :
    (s.prog np).isOther = (s.prog p).isOther := by
  unfold Local at h
  cases hprog : s.prog p with
  | call c k => simp [hprog, htask] at h
  | await k =>
    simp only [hprog, htask] at h
    rw [h.2.2.2]
  | role r | killed => simp [hprog, htask] at h
  | other =>
    simp only [hprog] at h
    exact h np i htask

/-- A process that a step leaves alone. -/
theorem Local.frame (h : Local n post weak s p)
    (hsame : (u.files.proc p).task = (s.files.proc p).task)
    (hresult : (u.files.proc p).result = (s.files.proc p).result)
    (hview : u.files.view p = s.files.view p) (hprog : u.prog p = s.prog p)
    (hmade : u.made = s.made)
    (hchild : ∀ np i, (s.files.proc p).task = .forkCopy np i → u.prog np = s.prog np) :
    Local n post weak u p := by
  unfold Local at h ⊢
  rw [hprog, hsame, hresult, hview, hmade]
  cases hp : s.prog p with
  | call c k => simpa only [hp] using h
  | await k =>
    simp only [hp] at h ⊢
    cases htask : (s.files.proc p).task with
    | forkCopy np i =>
      simp only [htask] at h
      simpa only [hchild np i htask] using h
    | exitClose fd => simp only [htask] at h
    | none | pipe1 _ | pipe2 _ _ => simpa only [htask] using h
  | role r | killed => simpa only [hp] using h
  | other =>
    simp only [hp] at h ⊢
    intro np i htask
    rw [hchild np i htask]
    exact h np i htask

/-- A process makes the call that its program asks for. -/
theorem Local.call {c : UserCall} {d : Call} {k : List Int → Prog ρ} (hs : s.files.Inv)
    (h : (Prog.call c k).Safe n post s.made (s.files.view p)) (hperm : c.permits d = true)
    (ht : step s.files (.call p d) = some t) (hfiles : u.files = t) (hmade : u.made = s.made)
    (hprog : u.prog p = .await k) (hchild : ∀ np pid, d = .fork np pid → u.prog np = .await k) :
    Local n post weak u p := by
  subst hfiles
  unfold Local
  rw [hprog, hmade]
  cases c with
  | «open» =>
    cases d with
    | «open» device ip omode =>
      obtain ⟨-, htask, ⟨hresult, hview⟩ | ⟨fd, hfd, hresult, hview⟩⟩ := open_view hs ht
      · simp only [htask, hresult, hview]
        exact h.1
      · simp only [htask, hresult, hview]
        exact h.2 fd hfd
    | _ => simp [UserCall.permits] at hperm
  | dup fd =>
    cases d with
    | dup fd' =>
      obtain rfl : fd = fd' := by simpa [UserCall.permits] using hperm
      obtain ⟨-, htask, hview⟩ := dup_view hs ht
      simp only [Prog.Safe] at h
      simp only [htask]
      split at hview
      · next hget hfree =>
        rw [hview.1, hview.2]
        simpa only [hget, hfree] using h
      · next hnone =>
        rw [hview.1, hview.2]
        split at h
        · next hget hfree => exact absurd hfree (hnone _ _ _ hget)
        · exact h
    | _ => simp [UserCall.permits] at hperm
  | close fd =>
    cases d with
    | close fd' =>
      obtain rfl : fd = fd' := by simpa [UserCall.permits] using hperm
      obtain ⟨-, htask, hview⟩ := close_view hs ht
      simp only [Prog.Safe] at h
      simp only [htask]
      split at hview
      · next hget =>
        rw [hview.1, hview.2]
        simpa only [hget] using h
      · next hget =>
        rw [hview.1, hview.2]
        simpa only [hget] using h
    | _ => simp [UserCall.permits] at hperm
  | pipe =>
    cases d with
    | pipe =>
      obtain ⟨-, hview, ⟨htask, hresult⟩ | htask⟩ := pipe_view hs ht
      · simp only [htask, hresult, hview]
        exact h.2.1
      · rw [hview]
        cases hp : (u.files.proc p).task with
        | pipe1 rf | pipe2 rf wf => exact h
        | _ => simp [hp, Task.isPipe] at htask
    | _ => simp [UserCall.permits] at hperm
  | fork =>
    cases d with
    | fork np pid =>
      obtain ⟨-, -, hview, htask, hresult⟩ := fork_view hs ht
      have hpid : 0 < pid := by simpa [UserCall.permits] using hperm
      simp only [htask, hresult, hview]
      exact ⟨h.1, h.2.2.2 pid hpid, h.2.2.1, hchild np pid rfl⟩
    | _ => simp [UserCall.permits] at hperm

/-- A process with a role opens a file or exits. -/
theorem Local.plain {r : ρ} {d : Call} (hs : s.files.Inv) (hstable : Stable post weak)
    (h : post s.made r (s.files.view p))
    (hplain : d.plain = true) (ht : step s.files (.call p d) = some t) (hfiles : u.files = t)
    (hmade : u.made = s.made) (hprog : u.prog p = .role r) : Local n post weak u p := by
  subst hfiles
  unfold Local
  rw [hprog, hmade]
  cases d with
  | «open» device ip omode =>
    obtain ⟨-, htask, ⟨-, hview⟩ | ⟨fd, hfd, -, hview⟩⟩ := open_view hs ht
    · simpa only [htask, hview] using h
    · simpa only [htask, hview] using hstable.opens _ _ _ fd h hfd
  | exit =>
    obtain ⟨-, hview, htask⟩ := exit_view hs ht
    simpa only [htask, hview] using hstable.weakens _ _ _ h
  | _ => simp [Call.plain] at hplain

/-- A process that was killed exits. -/
theorem Local.of_killed (hs : s.files.Inv) (ht : step s.files (.call p .exit) = some u.files)
    (hprog : u.prog p = .killed) : Local n post weak u p := by
  unfold Local
  rw [hprog]
  exact ⟨0, (exit_view hs ht).2.2⟩

theorem Local.of_isPipe (h : Local n post weak s p) (hpipe : (s.files.proc p).task.isPipe = true) :
    (∃ k, s.prog p = .await k ∧ (Prog.call .pipe k).Safe n post s.made (s.files.view p)) ∨
      s.prog p = .other := by
  unfold Local at h
  cases htask : (s.files.proc p).task with
  | pipe1 rf | pipe2 rf wf =>
    cases hprog : s.prog p with
    | call c k => simp [hprog, htask] at h
    | await k =>
      simp only [hprog, htask] at h
      exact Or.inl ⟨k, rfl, h⟩
    | role r | killed => simp [hprog, htask] at h
    | other => exact Or.inr rfl
  | _ => simp [htask, Task.isPipe] at hpipe

theorem Local.of_other (hprog : u.prog p = .other)
    (h : ∀ np i, (u.files.proc p).task = .forkCopy np i → (u.prog np).isOther = true) :
    Local n post weak u p := by
  unfold Local
  simpa only [hprog] using h

theorem Local.of_await {k : List Int → Prog ρ} (hprog : u.prog p = .await k)
    (htask : (u.files.proc p).task = .none)
    (h : (k (u.files.proc p).result).Safe n post u.made (u.files.view p)) :
    Local n post weak u p := by
  unfold Local
  simpa only [hprog, htask] using h

/-- A process goes on with the call it is in. -/
theorem Local.work {page : Option Nat} (hs : s.files.Inv) (hstable : Stable post weak)
    (hlive : (u.files.proc p).life = .alive) (h : Local n post weak s p)
    (hw : Worked s.files u.files p page) (hprog : u.prog = s.prog)
    (hmade : u.made = if madePipe s.files u.files p ∧ (s.prog p).isOther = false then
      s.made ++ page.toList else s.made) : Local n post weak u p := by
  have hold (hnot : ¬madePipe s.files u.files p) : u.made = s.made := by
    rw [hmade, if_neg fun hmade => hnot hmade.1]
  cases hw with
  | on _ hview htask hresult =>
    obtain hsame | ⟨hpipe, hpipe'⟩ := htask
    · have hnot : ¬madePipe s.files u.files p := fun hpipe => by
        obtain ⟨hpipe, hnone, -⟩ := hpipe
        simp [← hsame, hnone, Task.isPipe] at hpipe
      exact h.frame hsame hresult hview (by rw [hprog]) (hold hnot) fun _ _ _ => by rw [hprog]
    · have hnot : ¬madePipe s.files u.files p := fun hmade => by
        simp [hmade.2.1, Task.isPipe] at hpipe'
      obtain ⟨k, hk, hsafe⟩ | hother := h.of_isPipe hpipe
      · unfold Local
        rw [hprog, hk, hold hnot, hview]
        cases htask : (u.files.proc p).task with
        | pipe1 rf | pipe2 rf wf => exact hsafe
        | _ => simp [htask, Task.isPipe] at hpipe'
      · refine .of_other (hprog ▸ hother) fun np i htask => ?_
        simp [htask, Task.isPipe] at hpipe'
  | pipeFail _ hview hpipe htask hresult =>
    have hmade := hold fun hmade => hmade.2.2 hresult
    obtain ⟨k, hk, hsafe⟩ | hother := h.of_isPipe hpipe
    · refine .of_await (hprog ▸ hk) htask ?_
      rw [hresult, hmade, hview]
      exact hsafe.2.1
    · exact .of_other (hprog ▸ hother) (by simp [htask])
  | pipeDone pi fd0 fd1 hlabel _ hpage hfd0 hfd1 hview hpipe htask hresult =>
    obtain ⟨k, hk, hsafe⟩ | hother := h.of_isPipe hpipe
    · have hnew : madePipe s.files u.files p ∧ (s.prog p).isOther = false :=
        ⟨⟨hpipe, htask, by simp [hresult]⟩, by simp [hk, Prog.isOther]⟩
      rw [if_pos hnew, hlabel, Option.toList_some] at hmade
      refine .of_await (hprog ▸ hk) htask ?_
      rw [hresult, hmade, hview]
      exact hsafe.2.2 pi fd0 fd1 (fun hhas => allocated_of_has hs hhas hpage) hfd0 hfd1
    · exact .of_other (hprog ▸ hother) (by simp [htask])
  | forkGo np i _ hview hfork htask hresult =>
    have hmade := hold fun hmade => by simp [madePipe, hfork, Task.isPipe] at hmade
    unfold Local at h ⊢
    rw [hprog, hmade, hview, hresult, htask]
    cases hp : s.prog p with
    | call c k => simp [hp, hfork] at h
    | await k =>
      simp only [hp, hfork] at h
      exact h
    | role r | killed => simp [hp, hfork] at h
    | other =>
      simp only [hp, hfork] at h
      intro mp j hj
      obtain ⟨rfl, -⟩ : np = mp ∧ i + 1 = j := by simpa using hj
      exact h np i rfl
  | forkDone np i _ hview hfork htask hresult =>
    have hmade := hold fun hmade => by simp [madePipe, hfork, Task.isPipe] at hmade
    unfold Local at h
    cases hp : s.prog p with
    | call c k => simp [hp, hfork] at h
    | await k =>
      simp only [hp, hfork] at h
      refine .of_await (hprog ▸ hp) htask ?_
      rw [hresult, hmade, hview]
      exact h.2.1
    | role r | killed => simp [hp, hfork] at h
    | other => exact .of_other (hprog ▸ hp) (by simp [htask])
  | exiting fd hview hexit htask =>
    have hmade := hold fun hmade => by simp [madePipe, hexit, Task.isPipe] at hmade
    obtain ⟨-, htask⟩ := htask.resolve_right (by simp [hlive])
    unfold Local at h
    cases hp : s.prog p with
    | call c k => simp [hp, hexit] at h
    | await k => simp [hp, hexit] at h
    | role r =>
      simp only [hp, hexit] at h
      unfold Local
      rw [hprog, hmade, hp, htask]
      exact hstable.closes _ _ _ _ h hview
    | killed =>
      unfold Local
      rw [hprog, hp]
      exact ⟨fd + 1, htask⟩
    | other => exact .of_other (hprog ▸ hp) (by simp [htask])

/-- The pipes of the group stay in the group. -/
theorem Sys.Inv.apart_of_step (h : s.Inv n post weak) (ht : step s.files l = some t)
    (hactor : (s.files.proc l.actor).task = .none ∨ (s.files.proc l.actor).life = .alive)
    {prog : Fin nproc → Prog ρ} {made : List Nat}
    (hprog : ∀ q, (prog q).isOther = (s.prog q).isOther ∨ ∀ pi, ¬(t.view q).Has pi)
    (hmade : ∀ pi ∈ made, pi ∈ s.made ∨ s.files.table.pipe pi = none) :
    ∀ p q, (prog p).isOther → (prog q).isOther = false → ∀ pi ∈ made,
      ¬((t.view p).Has pi ∧ (t.view q).Has pi) := by
  rintro p q hp hq pi hpi ⟨hhasp, hhasq⟩
  have hp : (s.prog p).isOther = true := ((hprog p).resolve_right fun h => h pi hhasp) ▸ hp
  have hq : (s.prog q).isOther = false := ((hprog q).resolve_right fun h => h pi hhasq) ▸ hq
  -- what a process has comes from its side, or is new
  have hfrom : ∀ r, (t.view r).Has pi → (∃ r', (s.prog r').isOther = (s.prog r).isOther ∧
      (s.files.view r').Has pi) ∨ r = l.actor ∧ s.files.table.pipe pi = none := by
    intro r hr
    obtain hold | ⟨i, htask, hparent⟩ | hnew := has_of_step h.files ht hr
    · exact Or.inl ⟨r, rfl, hold⟩
    · have hlive := hactor.resolve_left (by simp [htask])
      exact Or.inl ⟨l.actor, ((h.safe _ hlive).side htask).symm, hparent⟩
    · exact Or.inr ⟨hnew.1, hnew.2.1⟩
  obtain ⟨p', hp', hhasp'⟩ | ⟨rfl, hnone⟩ := hfrom p hhasp
  · obtain ⟨q', hq', hhasq'⟩ | ⟨-, hnone⟩ := hfrom q hhasq
    · obtain hmem | hnone := hmade pi hpi
      · exact h.apart p' q' (hp'.trans hp) (hq'.trans hq) pi hmem ⟨hhasp', hhasq'⟩
      · exact allocated_of_has h.files hhasp' hnone
    · exact allocated_of_has h.files hhasp' hnone
  · obtain ⟨q', -, hhasq'⟩ | ⟨rfl, -⟩ := hfrom q hhasq
    · exact allocated_of_has h.files hhasq' hnone
    · simp [hp] at hq

/-- The program makes its call, was killed, has a role, or is another one. -/
theorem Prog.after_eq_some {k m : Prog ρ} {c : Call} (h : m.after c = some k) :
    (∃ d j, m = .call d j ∧ d.permits c = true ∧ k = .await j) ∨
      (m.isOther = false ∧ c = .exit ∧ k = .killed) ∨
      (∃ r, m = .role r ∧ c.plain = true ∧ k = .role r) ∨ m = .other ∧ k = .other := by
  cases m with
  | call d j =>
    simp only [Prog.after] at h
    split_ifs at h with hperm hexit
    · exact Or.inl ⟨d, j, rfl, hperm, (Option.some.inj h).symm⟩
    · exact Or.inr (Or.inl ⟨rfl, hexit, (Option.some.inj h).symm⟩)
  | await j =>
    simp only [Prog.after, Option.ite_none_right_eq_some, Option.some.injEq] at h
    exact Or.inr (Or.inl ⟨rfl, h.1, h.2.symm⟩)
  | role r =>
    simp only [Prog.after, Option.ite_none_right_eq_some, Option.some.injEq] at h
    exact Or.inr (Or.inr (Or.inl ⟨r, rfl, h.1, h.2.symm⟩))
  | killed => cases h
  | other => exact Or.inr (Or.inr (Or.inr ⟨rfl, (Option.some.inj h).symm⟩))

theorem Prog.after_side {k m : Prog ρ} {c : Call} (h : m.after c = some k) :
    k.isOther = m.isOther := by
  obtain ⟨d, j, rfl, -, rfl⟩ | ⟨hm, -, rfl⟩ | ⟨r, rfl, -, rfl⟩ | ⟨rfl, rfl⟩ := Prog.after_eq_some h
  · rfl
  · exact hm.symm
  · rfl
  · rfl

/-- Only `fork` begins to copy descriptors. -/
theorem call_forks {s t : State} {c : Call} {i : Nat} (hs : s.Inv)
    (h : Files.step s (.call p c) = some t) (htask : (t.proc p).task = .forkCopy np i) :
    ∃ pid, c = .fork np pid := by
  cases c with
  | «open» device ip omode => simp [(open_view hs h).2.1] at htask
  | dup fd => simp [(dup_view hs h).2.1] at htask
  | close fd => simp [(close_view hs h).2.1] at htask
  | pipe =>
    obtain ⟨-, -, ⟨hnone, -⟩ | hpipe⟩ := pipe_view hs h
    · simp [hnone] at htask
    · simp [htask, Task.isPipe] at hpipe
  | fork mp pid =>
    have hfork := (fork_view hs h).2.2.2.1
    obtain ⟨rfl, -⟩ : mp = np ∧ 0 = i := by simpa [hfork] using htask
    exact ⟨pid, rfl⟩
  | exit => simp [(exit_view hs h).2.2] at htask

/-- A process makes a call. -/
theorem Sys.Inv.call {c : Call} {k : Prog ρ} (h : s.Inv n post weak) (hstable : Stable post weak)
    (hk : (s.prog p).after c = some k) (ht : Files.step s.files (.call p c) = some t)
    (hfiles : u.files = t) (hmade : u.made = s.made) (hprogp : u.prog p = k)
    (hchild : ∀ np pid, c = .fork np pid → u.prog np = k)
    (hother : ∀ q, q ≠ p → (∀ pid, c ≠ .fork q pid) → u.prog q = s.prog q) :
    u.Inv n post weak := by
  subst hfiles
  have hcall := ht
  simp only [Files.step, Option.ite_none_right_eq_some] at hcall
  obtain ⟨⟨hlive, hidle⟩, hcall⟩ := hcall
  have hlocal := h.safe p hlive
  have hside := Prog.after_side hk
  have hnp : ∀ np pid, c = .fork np pid → (s.files.proc np).life = .unused := by
    rintro np pid rfl
    simp only [Files.call, Option.ite_none_right_eq_some] at hcall
    exact hcall.1
  refine ⟨h.files.step ht, fun q hq => ?_, fun a b hne ha hb => ?_, ?_⟩
  · by_cases hqp : q = p
    · subst hqp
      unfold Local at hlocal
      obtain ⟨d, j, hm, hperm, rfl⟩ | ⟨-, rfl, rfl⟩ | ⟨r, hm, hplain, rfl⟩ | ⟨hm, rfl⟩ :=
        Prog.after_eq_some hk
      · simp only [hm] at hlocal
        exact Local.call h.files hlocal.2 hperm ht rfl hmade hprogp hchild
      · exact .of_killed h.files ht hprogp
      · simp only [hm, hidle.2] at hlocal
        exact .plain h.files hstable hlocal hplain ht rfl hmade hprogp
      · refine .of_other hprogp fun np i htask => ?_
        obtain ⟨pid, hc⟩ := call_forks h.files ht htask
        rw [hchild np pid hc]
        rfl
    · by_cases hfork : ∃ pid, c = .fork q pid
      · obtain ⟨pid, rfl⟩ := hfork
        simp only [Files.call, Option.ite_none_right_eq_some, Option.some.injEq] at hcall
        obtain ⟨-, hcall⟩ := hcall
        simp [← hcall, put_proc, hqp] at hq
      · have hfork : ∀ pid, c ≠ .fork q pid := fun pid hc => hfork ⟨pid, hc⟩
        have hproc := call_proc_of_ne hcall hqp hfork
        refine (h.safe q (hproc ▸ hq)).frame (by rw [hproc]) (by rw [hproc])
          (view_eq_of_ofile h.files ht (by rw [hproc])) (hother q hqp hfork) hmade ?_
        intro np i htask
        have hused := (h.files.forking q np i htask).1
        refine hother np ?_ fun pid hc => by simp [hnp np pid hc] at hused
        rintro rfl
        simp [hlive] at hused
  · rw [hmade]
    by_cases hfork : ∃ np pid, c = .fork np pid ∧ (s.prog p).isOther = false
    · obtain ⟨np, pid, rfl, hp⟩ := hfork
      unfold Local at hlocal
      obtain ⟨d, j, hm, hperm, -⟩ | ⟨-, hexit, -⟩ | ⟨r, -, hplain, -⟩ | ⟨hm, -⟩ :=
        Prog.after_eq_some hk
      · simp only [hm] at hlocal
        cases d with
        | fork => exact hlocal.2.1
        | _ => simp [UserCall.permits] at hperm
      · cases hexit
      · simp [Call.plain] at hplain
      · simp [hm, Prog.isOther] at hp
    · have hold : ∀ x, (u.prog x).isOther = false → (s.prog x).isOther = false := by
        intro x hx
        by_cases hxp : x = p
        · subst hxp
          rw [← hside, ← hprogp]
          exact hx
        · by_cases hxc : ∃ pid, c = .fork x pid
          · obtain ⟨pid, hc⟩ := hxc
            rw [hchild x pid hc, hside] at hx
            exact absurd ⟨x, pid, hc, hx⟩ hfork
          · rwa [hother x hxp fun pid hc => hxc ⟨pid, hc⟩] at hx
      exact h.one a b hne (hold a ha) (hold b hb)
  · refine h.apart_of_step ht (Or.inr hlive) (fun q => ?_)
      (by rw [hmade]; exact fun _ hpi => Or.inl hpi)
    by_cases hqp : q = p
    · subst hqp
      exact Or.inl (by rw [hprogp, hside])
    · by_cases hqc : ∃ pid, c = .fork q pid
      · obtain ⟨pid, hc⟩ := hqc
        refine Or.inr fun pi hpi => ?_
        obtain ⟨fd, writable, hfd⟩ := hpi
        subst hc
        have hempty := h.files.empty q (Or.inl (hnp q pid rfl)) fd
        simp only [Files.call, Option.ite_none_right_eq_some, Option.some.injEq] at hcall
        obtain ⟨-, hcall⟩ := hcall
        simp [State.view, ← hcall, put_proc, hqp, hempty] at hfd
      · exact Or.inl (by rw [hother q hqp fun pid hc => hqc ⟨pid, hc⟩])

/-- A child that is set up begins where its parent was. -/
theorem Sys.Inv.child {page : Option Nat} {i : Nat} (h : s.Inv n post weak)
    (hu : u.files.Inv) (hw : Worked s.files u.files p page) (hq : (u.files.proc q).life = .alive)
    (hi : (s.files.proc p).task = .forkCopy q i) (hprog : u.prog = s.prog)
    (hmade : u.made = s.made) : Local n post weak u q := by
  have hlive : (s.files.proc p).life = .alive := by
    by_contra hdead
    simp [(h.files.idle p hdead).2] at hi
  have hlocal := h.safe p hlive
  cases hw with
  | forkDone np j _ _ hold _ _ _ htask hresult hview =>
    obtain ⟨rfl, -⟩ : np = q ∧ j = i := by simpa [hi, eq_comm] using hold
    unfold Local at hlocal
    cases hm : s.prog p with
    | call c k => simp [hm, hi] at hlocal
    | await k =>
      simp only [hm, hi] at hlocal
      refine .of_await (hprog ▸ hlocal.2.2.2) htask ?_
      rw [hresult, hmade, hview]
      exact hlocal.2.2.1
    | role r | killed => simp [hm, hi] at hlocal
    | other =>
      simp only [hm] at hlocal
      have hside := hlocal np i hi
      cases hc : s.prog np with
      | other => exact .of_other (hprog ▸ hc) (by simp [htask])
      | _ => simp [hc, Prog.isOther] at hside
  | forkGo np j _ _ hold _ _ hchild =>
    obtain ⟨rfl, -⟩ : np = q ∧ j = i := by simpa [hi, eq_comm] using hold
    simp [hchild] at hq
  | on _ _ htask =>
    have htask := (htask.resolve_right (by simp [hi, Task.isPipe])).trans hi
    simp [(hu.forking p q i htask).1] at hq
  | pipeFail _ _ hold | pipeDone _ _ _ _ _ _ _ _ _ hold => simp [hi, Task.isPipe] at hold
  | exiting _ _ hold => simp [hi] at hold

theorem page_of_madePipe {s t : State} {page : Option Nat} (h : Worked s t p page)
    (hmade : madePipe s t p) : ∃ pi, page = some pi ∧ s.table.pipe pi = none := by
  obtain ⟨hpipe, hnone, hresult⟩ := hmade
  cases h with
  | on _ _ htask =>
    obtain hsame | ⟨-, hpipe'⟩ := htask
    · simp [← hsame, hnone, Task.isPipe] at hpipe
    · simp [hnone, Task.isPipe] at hpipe'
  | pipeFail _ _ _ _ hfail => exact absurd hfail hresult
  | pipeDone pi _ _ hlabel _ hpage => exact ⟨pi, hlabel, hpage⟩
  | forkGo _ _ _ _ hold | forkDone _ _ _ _ hold | exiting _ _ hold =>
    simp [hold, Task.isPipe] at hpipe

/-- A process goes on with the call it is in. -/
theorem Sys.Inv.work {page : Option Nat} {copyout : Bool} (h : s.Inv n post weak)
    (hstable : Stable post weak) (ht : Files.step s.files (.work p page copyout) = some t)
    (hfiles : u.files = t) (hprog : u.prog = s.prog)
    (hmade : u.made = if madePipe s.files t p ∧ (s.prog p).isOther = false then
      s.made ++ page.toList else s.made) : u.Inv n post weak := by
  subst hfiles
  have hw := work_worked h.files ht
  have hlive : (s.files.proc p).life = .alive := by
    by_contra hdead
    obtain ⟨hclosing, htask⟩ := h.files.idle p hdead
    simp [Files.step, Files.work, hclosing, htask] at ht
  -- a pipe of the group is made before anyone else is in it
  have hlt : madePipe s.files u.files p → (s.prog p).isOther = false → s.made.length < n := by
    intro hpipe hp
    obtain ⟨k, -, hsafe⟩ | hother := (h.safe p hlive).of_isPipe hpipe.1
    · exact hsafe.1
    · simp [hother, Prog.isOther] at hp
  have hsame : (∃ q, q ≠ p ∧ (s.prog q).isOther = false) → u.made = s.made := by
    rintro ⟨q, hq, hside⟩
    rw [hmade, if_neg]
    rintro ⟨hpipe, hp⟩
    have := hlt hpipe hp
    have := h.one q p hq hside hp
    omega
  refine ⟨h.files.step ht, fun q hq => ?_, fun a b hne ha hb => ?_, ?_⟩
  · by_cases hqp : q = p
    · subst hqp
      exact (h.safe q hlive).work h.files hstable hq hw hprog hmade
    · by_cases hchild : ∃ i, (s.files.proc p).task = .forkCopy q i
      · obtain ⟨i, hi⟩ := hchild
        have hmade : u.made = s.made := by
          rw [hmade, if_neg]
          rintro ⟨hpipe, -⟩
          simp [madePipe, hi, Task.isPipe] at hpipe
        exact h.child (h.files.step ht) hw hq hi hprog hmade
      · have hproc := work_proc_of_ne ht hqp fun i hi => hchild ⟨i, hi⟩
        have hview := view_eq_of_ofile (p := q) (q := q) h.files ht (by rw [hproc])
        have hlocal := h.safe q (hproc ▸ hq)
        by_cases hside : (s.prog q).isOther = false
        · exact hlocal.frame (by rw [hproc]) (by rw [hproc]) hview (by rw [hprog])
            (hsame ⟨q, hqp, hside⟩) fun _ _ _ => by rw [hprog]
        · cases hm : s.prog q with
          | other =>
            unfold Local at hlocal
            simp only [hm] at hlocal
            exact .of_other (hprog ▸ hm) (by rwa [hproc, hprog])
          | _ => simp [hm, Prog.isOther] at hside
  · rw [hprog] at ha hb
    have hmade' : u.made = s.made := by
      by_cases hap : a = p
      · exact hsame ⟨b, hap ▸ hne.symm, hb⟩
      · exact hsame ⟨a, hap, ha⟩
    rw [hmade']
    exact h.one a b hne ha hb
  · refine h.apart_of_step ht (Or.inr hlive) (fun q => Or.inl (by rw [hprog])) fun pi hpi => ?_
    rw [hmade] at hpi
    split at hpi
    · next hnew =>
      obtain ⟨qi, hlabel, hpage⟩ := page_of_madePipe hw hnew.1
      rw [hlabel, Option.toList_some, List.mem_append, List.mem_singleton] at hpi
      obtain hold | rfl := hpi
      · exact Or.inl hold
      · exact Or.inr hpage
    · exact Or.inl hpi

/-- The program of a process goes on by itself. -/
theorem Sys.Inv.advance {k : Prog ρ} (h : s.Inv n post weak)
    (hlive : (s.files.proc p).life = .alive) (hidle : (s.files.proc p).idle)
    (hside : (s.prog p).isOther = false) (hsafe : k.Safe n post s.made (s.files.view p)) :
    ({ s with prog := Function.update s.prog p k } : Sys ρ).Inv n post weak := by
  have hk := hsafe.not_other
  have hsides : ∀ q, (Function.update s.prog p k q).isOther = (s.prog q).isOther := by
    intro q
    by_cases hq : q = p
    · subst hq
      simp [hk, hside]
    · simp [hq]
  refine ⟨h.files, fun q hq => ?_, fun a b hne ha hb => ?_, fun a b ha hb => ?_⟩
  · by_cases hqp : q = p
    · subst hqp
      unfold Local
      simp only [Function.update_self]
      cases k with
      | call c k => exact ⟨hidle.2, hsafe⟩
      | role r =>
        simp only [hidle.2]
        exact hsafe
      | await k | killed | other => exact hsafe.elim
    · refine (h.safe q hq).frame rfl rfl rfl (by simp [hqp]) rfl fun np i htask => ?_
      have hused := (h.files.forking q np i htask).1
      refine Function.update_of_ne ?_ _ _
      rintro rfl
      simp [hlive] at hused
  · rw [hsides] at ha hb
    exact h.one a b hne ha hb
  · rw [hsides] at ha hb
    exact h.apart a b ha hb

theorem Sys.Inv.reap (h : s.Inv n post weak) (ht : Files.step s.files (.reap p) = some t) :
    ({ s with files := t } : Sys ρ).Inv n post weak := by
  have hstep := ht
  simp only [Files.step, Option.ite_none_right_eq_some, Option.some.injEq] at ht
  obtain ⟨hzombie, rfl⟩ := ht
  have hidle := h.files.idle p (by simp [hzombie])
  refine ⟨h.files.step hstep, fun q hq => ?_, h.one,
    h.apart_of_step hstep (Or.inl hidle.2) (fun q => Or.inl rfl) fun pi hpi => Or.inl hpi⟩
  have hqp : q ≠ p := by
    rintro rfl
    simp [put_proc] at hq
  have hproc : (s.files.put s.files.table p { s.files.proc p with life := .unused }).proc q =
      s.files.proc q := by simp [put_proc, hqp]
  exact (h.safe q (hproc ▸ hq)).frame (by rw [hproc]) (by rw [hproc])
    (view_eq_of_ofile h.files hstep (by rw [hproc])) rfl rfl fun _ _ _ => rfl

theorem Sys.Inv.step {a : SysLabel} (h : s.Inv n post weak) (hstable : Stable post weak)
    (hu : sysStep s a = some u) : u.Inv n post weak := by
  cases a with
  | kernel l =>
    cases l with
    | call p c =>
      simp only [sysStep, Option.bind_eq_some_iff, Option.map_eq_some_iff] at hu
      obtain ⟨k, hk, t, ht, rfl⟩ := hu
      have hne : ∀ np pid, c = .fork np pid → p ≠ np := by
        rintro np pid rfl
        exact (fork_view h.files ht).1
      refine h.call hstable hk ht rfl rfl ?_ ?_ fun q hq hfork => ?_
      · cases c with
        | fork np pid => simp [hne np pid rfl]
        | _ => simp
      · rintro np pid rfl
        simp
      · cases c with
        | fork np pid =>
          have hq' : q ≠ np := fun hq' => hfork pid (hq' ▸ rfl)
          simp [hq, hq']
        | _ => simp [hq]
    | work p page copyout =>
      obtain ⟨t, ht, rfl⟩ := Option.map_eq_some_iff.mp hu
      exact h.work hstable ht rfl rfl rfl
    | reap p =>
      obtain ⟨t, ht, rfl⟩ := Option.map_eq_some_iff.mp hu
      exact h.reap ht
  | fail p =>
    simp only [sysStep] at hu
    split at hu
    · next k hk =>
      simp only [Option.ite_none_right_eq_some, Option.some.injEq] at hu
      obtain ⟨⟨hlive, hidle⟩, rfl⟩ := hu
      have hlocal := h.safe p hlive
      simp only [Local, hk] at hlocal
      exact h.advance hlive hidle (by simp [hk, Prog.isOther]) hlocal.2.1
    · next k hk =>
      simp only [Option.ite_none_right_eq_some, Option.some.injEq] at hu
      obtain ⟨⟨hlive, hidle⟩, rfl⟩ := hu
      have hlocal := h.safe p hlive
      simp only [Local, hk] at hlocal
      exact h.advance hlive hidle (by simp [hk, Prog.isOther]) hlocal.2.2.1
    · cases hu
  | resume p =>
    simp only [sysStep] at hu
    split at hu
    · next k hk =>
      simp only [Option.ite_none_right_eq_some, Option.some.injEq] at hu
      obtain ⟨⟨hlive, hidle⟩, rfl⟩ := hu
      have hlocal := h.safe p hlive
      simp only [Local, hk, hidle.2] at hlocal
      exact h.advance hlive hidle (by simp [hk, Prog.isOther]) hlocal
    · cases hu

/-- A group begins with one process, which has no pipe of the group yet. -/
theorem Sys.Inv.start {files : State} {k : Prog ρ} (hfiles : files.Inv)
    (hlive : (files.proc p).life = .alive) (hidle : (files.proc p).idle)
    (hsafe : k.Safe n post [] (files.view p)) :
    (⟨files, Function.update (fun _ => .other) p k, []⟩ : Sys ρ).Inv n post weak := by
  have hother : ∀ q, q ≠ p → (Function.update (fun _ => .other) p k : Fin nproc → Prog ρ) q =
      .other := fun q hq => Function.update_of_ne hq _ _
  refine ⟨hfiles, fun q hq => ?_, fun a b hne ha hb => ?_, by simp⟩
  · by_cases hqp : q = p
    · subst hqp
      unfold Local
      simp only [Function.update_self]
      cases k with
      | call c k => exact ⟨hidle.2, hsafe⟩
      | role r =>
        simp only [hidle.2]
        exact hsafe
      | await k | killed | other => exact hsafe.elim
    · refine .of_other (hother q hqp) fun np i htask => ?_
      have hused := (hfiles.forking q np i htask).1
      have hnp : np ≠ p := by
        rintro rfl
        simp [hlive] at hused
      simp [hother np hnp, Prog.isOther]
  · by_cases hap : a = p
    · have hbp : b ≠ p := fun hbp => hne (hap.trans hbp.symm)
      simp [hother b hbp, Prog.isOther] at hb
    · simp [hother a hap, Prog.isOther] at ha

/-- Every run keeps to the programs. -/
theorem Sys.Inv.exec {ls : List SysLabel} (h : s.Inv n post weak) (hstable : Stable post weak)
    (hu : Foundation.exec sysStep s ls = some u) : u.Inv n post weak :=
  exec_invariant (I := Sys.Inv n post weak) (fun _ _ _ h hu => h.step hstable hu) h hu

end

end LiberalOS.Kernel.Files
