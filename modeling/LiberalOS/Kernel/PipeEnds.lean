import LiberalOS.Kernel.Descriptors

/-!
# Ends of pipes

What the descriptors of a process stand for is a matter of its own calls: a file that is referred to
keeps its pipe, so that the steps of other processes do not change it. This is what a program can
reckon with, whatever runs beside it.
-/
namespace LiberalOS.Kernel.Files
open Foundation

/-- An end of a pipe, by its page, and whether it is the write end; or something else. -/
abbrev Kind : Type := Option (Nat × Bool)

def File.kind (x : File) : Kind := if x.type = .pipe then some (x.pipe, x.writable) else none

/-- What stands at each number. -/
abbrev View : Type := Fin nofile → Option Kind

def State.view (s : State) (p : Fin nproc) : View := fun fd =>
  ((s.proc p).ofile fd).map fun f => (s.table.file f).kind

namespace View

def set (v : View) (fd : Fin nofile) (x : Option Kind) : View := fun i => if i = fd then x else v i

/-- The lowest number that is free. -/
def free (v : View) : Option (Fin nofile) := (List.finRange nofile).find? fun fd => (v fd).isNone

def get (v : View) (fd : Int) : Option (Fin nofile × Kind) :=
  if h : fd.toNat < nofile ∧ 0 ≤ fd then (v ⟨fd.toNat, h.1⟩).map (⟨fd.toNat, h.1⟩, ·) else none

/-- There is an end of this pipe. -/
def Has (v : View) (pi : Nat) : Prop := ∃ fd writable, v fd = some (some (pi, writable))

end View

/-- The process is in `pipe`. -/
def Task.isPipe : Task → Bool
  | .pipe1 _ | .pipe2 _ _ => true
  | _ => false

section
variable {s t : State} {l : Label} {p q : Fin nproc} {f : Fin nfile}

/-! ## Files keep their kind -/

theorem fileclose_kind {a b : Table} {ff : Option File} {g : Fin nfile}
    (h : fileclose a g = some (b, ff)) (href : 0 < (b.file f).ref) :
    (b.file f).kind = (a.file f).kind := by
  obtain ⟨-, -, rfl⟩ | ⟨-, -, rfl⟩ := fileclose_eq_some h <;> grind [File.kind]

theorem filedup_kind {a b : Table} {g : Fin nfile} (h : filedup a g = some b) :
    (b.file f).kind = (a.file f).kind := by
  obtain ⟨-, rfl⟩ := filedup_eq_some h
  grind [File.kind]

theorem filealloc_kind {a b : Table} {g : Fin nfile} (h : filealloc a = some (b, g)) :
    (b.file f).kind = (a.file f).kind := by
  obtain ⟨-, rfl⟩ := filealloc_eq_some h
  grind [File.kind]

theorem release_file {a b : Table} {ff : File} (h : release a ff = some b) : b.file = a.file := by
  unfold release pipeclose at h
  split at h
  · obtain ⟨e, -, rfl⟩ := Option.map_eq_some_iff.mp h
    rfl
  · obtain rfl := Option.some.inj h
    rfl

theorem newPipe_kind {a : Table} {rf wf : Fin nfile} {pi : Nat} (hrf : f ≠ rf) (hwf : f ≠ wf) :
    ((a.newPipe rf wf pi).file f).kind = (a.file f).kind := by
  grind [Table.newPipe, Table.setPipe_file, File.kind]

theorem forkStep_kind {i : Nat} {np : Fin nproc} (h : forkStep s p np i = some t) :
    (t.table.file f).kind = (s.table.file f).kind := by
  unfold forkStep at h
  split at h
  · split at h
    · obtain rfl := Option.some.inj h
      rfl
    · obtain ⟨u, hu, rfl⟩ := Option.map_eq_some_iff.mp h
      exact filedup_kind hu
  · obtain rfl := Option.some.inj h
    rfl

theorem exitStep_kind {fd : Nat} (h : exitStep s p fd = some t)
    (href : 0 < (t.table.file f).ref) : (t.table.file f).kind = (s.table.file f).kind := by
  unfold exitStep at h
  split at h
  · split at h
    · obtain rfl := Option.some.inj h
      rfl
    · obtain ⟨⟨u, ff⟩, hu, rfl⟩ := Option.map_eq_some_iff.mp h
      exact fileclose_kind hu href
  · obtain rfl := Option.some.inj h
    rfl

theorem pipeEnd_kind {rf wf : Fin nfile} {page : Option Nat} {copyout : Bool}
    (h : pipeEnd s p rf wf page copyout = some t) (hrf : f ≠ rf) (hwf : f ≠ wf) :
    (t.table.file f).kind = (s.table.file f).kind := by
  unfold pipeEnd at h
  split at h
  · obtain rfl := Option.some.inj h
    rfl
  · split at h
    · cases h
    · split at h <;> obtain rfl := Option.some.inj h <;> exact newPipe_kind hrf hwf

theorem work_kind {page : Option Nat} {copyout : Bool} (hs : s.Inv)
    (h : work s p page copyout = some t) (htype : (s.table.file f).type ≠ .none)
    (href : 0 < (t.table.file f).ref) : (t.table.file f).kind = (s.table.file f).kind := by
  unfold work at h
  split at h
  · obtain ⟨⟨u, ff⟩, hu, rfl⟩ := Option.map_eq_some_iff.mp h
    exact fileclose_kind hu href
  · obtain ⟨u, hu, rfl⟩ := Option.map_eq_some_iff.mp h
    rw [put_table, release_file hu]
  · split at h
    · cases h
    · split at h
      · obtain rfl := Option.some.inj h
        rfl
      · next hu =>
        obtain rfl := Option.some.inj h
        exact filealloc_kind hu
    · next rf wf htask =>
      -- the two files have no type yet
      have hnew : ∀ g ∈ (s.owns p).fresh, f ≠ g := fun g hg hfg =>
        htype (hfg ▸ (hs.table.unset p g hg).2)
      refine pipeEnd_kind h (hnew rf ?_) (hnew wf ?_) <;>
        simp [State.owns, Proc.own, htask, Task.fresh]
    · exact forkStep_kind h
    · exact exitStep_kind h href

theorem call_kind {c : Call} (hs : s.Inv) (h : call s p c = some t)
    (htype : (s.table.file f).type ≠ .none) (href : 0 < (t.table.file f).ref) :
    (t.table.file f).kind = (s.table.file f).kind := by
  cases c with
  | «open» device ip omode =>
    simp only [call, sysOpen] at h
    split at h
    · obtain rfl := Option.some.inj h
      rfl
    · next u g hu =>
      have hg : f ≠ g := by
        rintro rfl
        exact htype (hs.table.free f (filealloc_eq_some hu).1)
      split at h
      · obtain rfl := Option.some.inj h
        exact filealloc_kind hu
      · obtain rfl := Option.some.inj h
        rw [← filealloc_kind hu]
        grind [Table.openFile, File.kind, put_table]
  | dup fd =>
    simp only [call, sysDup] at h
    split at h
    · obtain rfl := Option.some.inj h
      rfl
    · split at h
      · obtain rfl := Option.some.inj h
        rfl
      · obtain ⟨u, hu, rfl⟩ := Option.map_eq_some_iff.mp h
        exact filedup_kind hu
  | close fd =>
    simp only [call, sysClose] at h
    split at h
    · obtain rfl := Option.some.inj h
      rfl
    · obtain ⟨⟨u, ff⟩, hu, rfl⟩ := Option.map_eq_some_iff.mp h
      exact fileclose_kind hu href
  | pipe =>
    simp only [call, sysPipe] at h
    split at h
    · obtain rfl := Option.some.inj h
      rfl
    · next hu =>
      obtain rfl := Option.some.inj h
      exact filealloc_kind hu
  | fork np pid =>
    simp only [call, Option.ite_none_right_eq_some, Option.some.injEq] at h
    obtain ⟨-, rfl⟩ := h
    rfl
  | exit =>
    simp only [call, Option.ite_none_left_eq_some, Option.some.injEq] at h
    obtain ⟨-, rfl⟩ := h
    rfl

/-- A file that someone has set up keeps its kind as long as it is referred to. -/
theorem step_kind (hs : s.Inv) (h : step s l = some t) (htype : (s.table.file f).type ≠ .none)
    (href : 0 < (t.table.file f).ref) : (t.table.file f).kind = (s.table.file f).kind := by
  cases l with
  | call p c =>
    simp only [step, Option.ite_none_right_eq_some] at h
    exact call_kind hs h.2 htype href
  | work p page copyout => exact work_kind hs h htype href
  | reap p =>
    simp only [step, Option.ite_none_right_eq_some, Option.some.injEq] at h
    obtain ⟨-, rfl⟩ := h
    rfl

/-! ## Views -/

/-- Where a descriptor stays, it stands for the same. -/
theorem view_eq (hs : s.Inv) (h : step s l = some t) {i j : Fin nofile}
    (hofile : (t.proc p).ofile i = (s.proc q).ofile j) : t.view p i = s.view q j := by
  simp only [State.view, hofile]
  cases hf : (s.proc q).ofile j with
  | none => rfl
  | some f =>
    have ht := (hs.step h).table.ref_pos (mem_held_of_ofile (hofile.trans hf))
    have htype := hs.table.typed q f (mem_entries.mpr ⟨j, hf⟩)
    simp only [Option.map_some, step_kind hs h htype ht]

theorem view_eq_of_ofile (hs : s.Inv) (h : step s l = some t)
    (hofile : (t.proc p).ofile = (s.proc q).ofile) : t.view p = s.view q :=
  funext fun fd => view_eq hs h (congrFun hofile fd)

theorem view_free (s : State) (p : Fin nproc) :
    (s.view p).free = (List.finRange nofile).find? fun fd => ((s.proc p).ofile fd).isNone := by
  simp [View.free, State.view]

theorem view_get (s : State) (p : Fin nproc) (fd : Int) :
    (s.view p).get fd = (argfd (s.proc p) fd).map fun x => (x.1, (s.table.file x.2).kind) := by
  simp only [View.get, argfd, and_comm (a := 0 ≤ fd)]
  split <;> simp [State.view, Function.comp_def]

theorem fdalloc_eq_none_iff {x : Proc} : fdalloc x f = none ↔
    (List.finRange nofile).find? (fun fd => (x.ofile fd).isNone) = none := by
  simp [fdalloc]

theorem fdalloc_free {r : Proc} {fd : Fin nofile} (h : fdalloc (s.proc p) f = some (r, fd)) :
    (s.view p).free = some fd := by
  simp only [fdalloc, Option.map_eq_some_iff, Prod.mk.injEq] at h
  obtain ⟨i, hi, -, rfl⟩ := h
  rw [view_free, hi]

/-- A number is taken for a file. -/
theorem view_set (fd : Fin nofile) (hs : s.Inv) (h : step s l = some t)
    (hofile : (t.proc p).ofile = Function.update (s.proc p).ofile fd (some f)) :
    t.view p = (s.view p).set fd (some (t.table.file f).kind) := by
  funext i
  by_cases hi : i = fd
  · subst hi
    simp [State.view, View.set, hofile]
  · simp only [View.set, if_neg hi]
    exact view_eq hs h (by simp [hofile, hi])

theorem view_clear (fd : Fin nofile) (hs : s.Inv) (h : step s l = some t)
    (hofile : (t.proc p).ofile = Function.update (s.proc p).ofile fd none) :
    t.view p = (s.view p).set fd none := by
  funext i
  by_cases hi : i = fd
  · subst hi
    simp [State.view, View.set, hofile]
  · simp only [View.set, if_neg hi]
    exact view_eq hs h (by simp [hofile, hi])

/-! ## What a call does -/

theorem open_view {device : Bool} {ip omode : Nat} (hs : s.Inv)
    (h : step s (.call p (.open device ip omode)) = some t) :
    (t.proc p).life = .alive ∧ (t.proc p).task = .none ∧
      ((t.proc p).result = [-1] ∧ t.view p = s.view p ∨
        ∃ fd, (s.view p).free = some fd ∧ (t.proc p).result = [(fd.val : Int)] ∧
          t.view p = (s.view p).set fd (some none)) := by
  have hstep := h
  simp only [step, Option.ite_none_right_eq_some, call, sysOpen] at h
  obtain ⟨⟨hp, hidle⟩, h⟩ := h
  split at h
  · obtain rfl := Option.some.inj h
    refine ⟨by simp [put_proc, hp], by simp [put_proc, hidle.2], Or.inl ⟨by simp [put_proc], ?_⟩⟩
    exact view_eq_of_ofile hs hstep (by simp [put_proc])
  · next u g hu =>
    split at h
    · obtain rfl := Option.some.inj h
      refine ⟨by simp [put_proc, hp], by simp [put_proc, hidle.2], Or.inl ⟨by simp [put_proc], ?_⟩⟩
      exact view_eq_of_ofile hs hstep (by simp [put_proc])
    · next r fd hr =>
      obtain rfl := Option.some.inj h
      have hfree := fdalloc_free hr
      obtain ⟨-, rfl⟩ := fdalloc_eq_some hr
      refine ⟨by simp [put_proc, hp], by simp [put_proc, hidle.2],
        Or.inr ⟨fd, hfree, by simp [put_proc], ?_⟩⟩
      rw [view_set (f := g) fd hs hstep (by simp [put_proc])]
      congr 2
      cases device <;> simp [Table.openFile, Table.setFile_file, File.kind]

theorem dup_view {fd : Int} (hs : s.Inv) (h : step s (.call p (.dup fd)) = some t) :
    (t.proc p).life = .alive ∧ (t.proc p).task = .none ∧
      match (s.view p).get fd, (s.view p).free with
      | some (_, x), some n =>
        (t.proc p).result = [(n.val : Int)] ∧ t.view p = (s.view p).set n (some x)
      | _, _ => (t.proc p).result = [-1] ∧ t.view p = s.view p := by
  have hstep := h
  simp only [step, Option.ite_none_right_eq_some, call, sysDup] at h
  obtain ⟨⟨hp, hidle⟩, h⟩ := h
  rw [view_get, view_free]
  split at h
  · next hf =>
    obtain rfl := Option.some.inj h
    refine ⟨by simp [put_proc, hp], by simp [put_proc, hidle.2], ?_⟩
    simp only [hf, Option.map_none]
    exact ⟨by simp [put_proc], view_eq_of_ofile hs hstep (by simp [put_proc])⟩
  · next i f hf =>
    split at h
    · next hfull =>
      obtain rfl := Option.some.inj h
      refine ⟨by simp [put_proc, hp], by simp [put_proc, hidle.2], ?_⟩
      simp only [hf, Option.map_some, fdalloc_eq_none_iff.mp hfull]
      exact ⟨by simp [put_proc], view_eq_of_ofile hs hstep (by simp [put_proc])⟩
    · next r n hr =>
      obtain ⟨u, hu, rfl⟩ := Option.map_eq_some_iff.mp h
      have hfree := fdalloc_free hr
      rw [view_free] at hfree
      obtain ⟨-, rfl⟩ := fdalloc_eq_some hr
      refine ⟨by simp [put_proc, hp], by simp [put_proc, hidle.2], ?_⟩
      simp only [hf, Option.map_some, hfree]
      refine ⟨by simp [put_proc], ?_⟩
      rw [view_set (f := f) n hs hstep (by simp [put_proc]), put_table, filedup_kind hu]

theorem close_view {fd : Int} (hs : s.Inv) (h : step s (.call p (.close fd)) = some t) :
    (t.proc p).life = .alive ∧ (t.proc p).task = .none ∧
      match (s.view p).get fd with
      | some (i, _) => (t.proc p).result = [0] ∧ t.view p = (s.view p).set i none
      | none => (t.proc p).result = [-1] ∧ t.view p = s.view p := by
  have hstep := h
  simp only [step, Option.ite_none_right_eq_some, call, sysClose] at h
  obtain ⟨⟨hp, hidle⟩, h⟩ := h
  rw [view_get]
  split at h
  · next hf =>
    obtain rfl := Option.some.inj h
    refine ⟨by simp [put_proc, hp], by simp [put_proc, hidle.2], ?_⟩
    simp only [hf, Option.map_none]
    exact ⟨by simp [put_proc], view_eq_of_ofile hs hstep (by simp [put_proc])⟩
  · next i f hf =>
    obtain ⟨⟨u, ff⟩, hu, rfl⟩ := Option.map_eq_some_iff.mp h
    refine ⟨by simp [put_proc, hp, Proc.closed], by simp [put_proc, hidle.2, Proc.closed], ?_⟩
    simp only [hf, Option.map_some]
    exact ⟨by simp [put_proc, Proc.closed], view_clear i hs hstep (by simp [put_proc, Proc.closed])⟩

theorem pipe_view (hs : s.Inv) (h : step s (.call p .pipe) = some t) :
    (t.proc p).life = .alive ∧ t.view p = s.view p ∧
      ((t.proc p).task = .none ∧ (t.proc p).result = [-1] ∨ (t.proc p).task.isPipe) := by
  have hstep := h
  simp only [step, Option.ite_none_right_eq_some, call, sysPipe] at h
  obtain ⟨⟨hp, hidle⟩, h⟩ := h
  split at h
  · obtain rfl := Option.some.inj h
    exact ⟨by simp [put_proc, hp], view_eq_of_ofile hs hstep (by simp [put_proc]),
      Or.inl ⟨by simp [put_proc, hidle.2], by simp [put_proc]⟩⟩
  · next u rf hu =>
    obtain rfl := Option.some.inj h
    exact ⟨by simp [put_proc, hp], view_eq_of_ofile hs hstep (by simp [put_proc]),
      Or.inr (by simp [put_proc, Task.isPipe])⟩

theorem fork_view {np : Fin nproc} {pid : Nat} (hs : s.Inv)
    (h : step s (.call p (.fork np pid)) = some t) :
    p ≠ np ∧ (t.proc p).life = .alive ∧ t.view p = s.view p ∧ (t.proc p).task = .forkCopy np 0 ∧
      (t.proc p).result = [(pid : Int)] := by
  have hstep := h
  simp only [step, call, Option.ite_none_right_eq_some, Option.some.injEq] at h
  obtain ⟨⟨hp, -⟩, hnp, rfl⟩ := h
  have hne : p ≠ np := by
    rintro rfl
    simp [hp] at hnp
  exact ⟨hne, by simp [put_proc, hp], view_eq_of_ofile hs hstep (by simp [put_proc]),
    by simp [put_proc], by simp [put_proc]⟩

theorem exit_view (hs : s.Inv) (h : step s (.call p .exit) = some t) :
    (t.proc p).life = .alive ∧ t.view p = s.view p ∧ (t.proc p).task = .exitClose 0 := by
  have hstep := h
  simp only [step, call, Option.ite_none_right_eq_some, Option.ite_none_left_eq_some,
    Option.some.injEq] at h
  obtain ⟨⟨hp, -⟩, -, rfl⟩ := h
  exact ⟨by simp [put_proc, hp], view_eq_of_ofile hs hstep (by simp [put_proc]),
    by simp [put_proc]⟩

/-- What a process does when it goes on with a call; `page` is what `kalloc` has for it. -/
inductive Worked (s t : State) (p : Fin nproc) (page : Option Nat) : Prop where
  /-- It closes a file, or takes the second file for a pipe. -/
  | on (hlife : (t.proc p).life = .alive) (hview : t.view p = s.view p)
    (htask : (t.proc p).task = (s.proc p).task ∨
      (s.proc p).task.isPipe ∧ (t.proc p).task.isPipe)
    (hresult : (t.proc p).result = (s.proc p).result)
  /-- There are no files, no page or no numbers for a pipe. -/
  | pipeFail (hlife : (t.proc p).life = .alive) (hview : t.view p = s.view p)
    (hold : (s.proc p).task.isPipe) (htask : (t.proc p).task = .none)
    (hresult : (t.proc p).result = [-1])
  /-- The pipe is there, and has a page that no pipe had. -/
  | pipeDone (pi : Nat) (fd0 fd1 : Fin nofile) (hlabel : page = some pi)
    (hlife : (t.proc p).life = .alive) (hpage : s.table.pipe pi = none)
    (hfd0 : (s.view p).free = some fd0)
    (hfd1 : ((s.view p).set fd0 (some (some (pi, false)))).free = some fd1)
    (hview : t.view p = ((s.view p).set fd0 (some (some (pi, false)))).set fd1
      (some (some (pi, true))))
    (hold : (s.proc p).task.isPipe) (htask : (t.proc p).task = .none)
    (hresult : (t.proc p).result = [0, (fd0.val : Int), (fd1.val : Int)])
  /-- One more descriptor is copied. -/
  | forkGo (np : Fin nproc) (i : Nat) (hlife : (t.proc p).life = .alive)
    (hview : t.view p = s.view p) (hold : (s.proc p).task = .forkCopy np i)
    (htask : (t.proc p).task = .forkCopy np (i + 1))
    (hresult : (t.proc p).result = (s.proc p).result) (hchild : (t.proc np).life = .used)
  /-- The child is set up. -/
  | forkDone (np : Fin nproc) (i : Nat) (hlife : (t.proc p).life = .alive)
    (hview : t.view p = s.view p) (hold : (s.proc p).task = .forkCopy np i)
    (htask : (t.proc p).task = .none) (hresult : (t.proc p).result = (s.proc p).result)
    (hchild : (t.proc np).life = .alive) (hchildtask : (t.proc np).task = .none)
    (hchildresult : (t.proc np).result = [0]) (hchildview : t.view np = s.view p)
  /-- One more descriptor is closed, or all are. -/
  | exiting (fd : Nat) (hview : ∀ i, t.view p i = s.view p i ∨ t.view p i = none)
    (hold : (s.proc p).task = .exitClose fd)
    (htask : (t.proc p).life = .alive ∧ (t.proc p).task = .exitClose (fd + 1) ∨
      (t.proc p).life = .zombie)

theorem exitStep_worked {fd : Nat} {page : Option Nat} {copyout : Bool} (hs : s.Inv)
    (hp : (s.proc p).life = .alive) (hstep : step s (.work p page copyout) = some t)
    (htask : (s.proc p).task = .exitClose fd) (h : exitStep s p fd = some t) :
    Worked s t p page := by
  unfold exitStep at h
  split at h
  · next hfd =>
    split at h
    · obtain rfl := Option.some.inj h
      refine .exiting fd (fun i => Or.inl ?_) htask (Or.inl (by simp [put_proc, hp]))
      rw [view_eq_of_ofile (q := p) hs hstep (by simp [put_proc])]
    · next f hf =>
      obtain ⟨⟨u, ff⟩, hu, rfl⟩ := Option.map_eq_some_iff.mp h
      refine .exiting fd (fun i => ?_) htask (Or.inl (by simp [put_proc, hp, Proc.closed]))
      rw [view_clear (p := p) ⟨fd, hfd⟩ hs hstep (by simp [put_proc, Proc.closed]), View.set]
      split
      · exact Or.inr rfl
      · exact Or.inl rfl
  · obtain rfl := Option.some.inj h
    refine .exiting fd (fun i => Or.inl ?_) htask (Or.inr (by simp [put_proc]))
    rw [view_eq_of_ofile (q := p) hs hstep (by simp [put_proc])]

theorem forkStep_worked {np : Fin nproc} {i : Nat} {page : Option Nat} {copyout : Bool} (hs : s.Inv)
    (hp : (s.proc p).life = .alive) (hstep : step s (.work p page copyout) = some t)
    (htask : (s.proc p).task = .forkCopy np i) (h : forkStep s p np i = some t) :
    Worked s t p page := by
  obtain ⟨hused, hcopied⟩ := hs.forking p np i htask
  have hidle := hs.idle np (by simp [hused])
  have hne : np ≠ p := by
    rintro rfl
    simp [hp] at hused
  unfold forkStep at h
  split at h
  · split at h
    · obtain rfl := Option.some.inj h
      exact .forkGo np i (by simp [put_proc, hp])
        (view_eq_of_ofile hs hstep (by simp [put_proc])) htask (by simp [put_proc])
        (by simp [put_proc]) (by simp [put_proc, hne, hused])
    · obtain ⟨u, hu, rfl⟩ := Option.map_eq_some_iff.mp h
      exact .forkGo np i (by simp [put_proc, hp])
        (view_eq_of_ofile hs hstep (by simp [put_proc])) htask (by simp [put_proc])
        (by simp [put_proc]) (by simp [put_proc, hne, hused])
  · next hi =>
    obtain rfl := Option.some.inj h
    have hofile : (s.proc np).ofile = (s.proc p).ofile := by
      funext fd
      have hfd : fd.val < i := by omega
      simp [hcopied, hfd]
    exact .forkDone np i (by simp [put_proc, hp])
      (view_eq_of_ofile hs hstep (by simp [put_proc])) htask (by simp [put_proc])
      (by simp [put_proc]) (by simp [put_proc, hne]) (by simp [put_proc, hne, hidle.2])
      (by simp [put_proc, hne]) (view_eq_of_ofile hs hstep (by simp [put_proc, hne, hofile]))

theorem pipeEnd_worked {rf wf : Fin nfile} {page : Option Nat} {copyout : Bool} (hs : s.Inv)
    (hp : (s.proc p).life = .alive) (hstep : step s (.work p page copyout) = some t)
    (htask : (s.proc p).task = .pipe2 rf wf) (h : pipeEnd s p rf wf page copyout = some t) :
    Worked s t p page := by
  have hold : (s.proc p).task.isPipe = true := by simp [htask, Task.isPipe]
  unfold pipeEnd at h
  split at h
  · obtain rfl := Option.some.inj h
    exact .pipeFail (by simp [put_proc, hp]) (view_eq_of_ofile hs hstep (by simp [put_proc])) hold
      (by simp [put_proc]) (by simp [put_proc])
  · next pi =>
    split at h
    · cases h
    · next hpi =>
      split at h
      · obtain rfl := Option.some.inj h
        exact .pipeFail (by simp [put_proc, hp]) (view_eq_of_ofile hs hstep (by simp [put_proc]))
          hold (by simp [put_proc]) (by simp [put_proc])
      · next r hr =>
        obtain rfl := Option.some.inj h
        cases copyout with
        | false =>
          exact .pipeFail (by simp [put_proc, hp]) (view_eq_of_ofile hs hstep (by simp [put_proc]))
            hold (by simp [put_proc]) (by simp [put_proc])
        | true =>
          simp only [pipeInstall, Option.bind_eq_some_iff, Option.map_eq_some_iff] at hr
          obtain ⟨⟨q₀, fd0⟩, hq₀, ⟨q₁, fd1⟩, hq₁, rfl⟩ := hr
          have hfd0 := fdalloc_free hq₀
          obtain ⟨-, rfl⟩ := fdalloc_eq_some hq₀
          have hfd1 : ((s.view p).set fd0 (some (some (pi, false)))).free = some fd1 := by
            simp only [fdalloc, Option.map_eq_some_iff, Prod.mk.injEq] at hq₁
            obtain ⟨j, hj, -, rfl⟩ := hq₁
            rw [← hj, View.free]
            congr 1
            funext i
            by_cases hi : i = fd0 <;> simp [View.set, State.view, hi]
          obtain ⟨hfree1, rfl⟩ := fdalloc_eq_some hq₁
          have hne : fd0 ≠ fd1 := by
            rintro rfl
            simp at hfree1
          have hrw : rf ≠ wf := by
            have := hs.table.nodup_fresh p
            simp [State.owns, Proc.own, htask, Task.fresh] at this
            exact this
          have hofile (i : Fin nofile) (h0 : i ≠ fd0) (h1 : i ≠ fd1) :=
            view_eq (p := p) (q := p) hs hstep (i := i) (j := i) (by simp [put_proc, h0, h1])
          refine .pipeDone pi fd0 fd1 rfl (by simp [put_proc, hp]) (by simpa using hpi) hfd0 hfd1
            (funext fun i => ?_) hold (by simp [put_proc]) (by simp [put_proc])
          by_cases h1 : i = fd1
          · subst h1
            simp [View.set, State.view, put_proc, Table.newPipe, Table.setFile_file, File.kind]
          · by_cases h0 : i = fd0
            · subst h0
              simp [View.set, State.view, put_proc, Table.newPipe, Table.setFile_file, File.kind,
                hne, hrw]
            · simpa [View.set, h0, h1] using hofile i h0 h1

theorem work_worked {page : Option Nat} {copyout : Bool} (hs : s.Inv)
    (h : step s (.work p page copyout) = some t) : Worked s t p page := by
  have hstep := h
  have hp : (s.proc p).life = .alive := by
    by_contra hdead
    obtain ⟨hclosing, htask⟩ := hs.idle p hdead
    simp [step, work, hclosing, htask] at h
  simp only [step, work] at h
  split at h
  · obtain ⟨⟨u, ff⟩, hu, rfl⟩ := Option.map_eq_some_iff.mp h
    exact .on (by simp [put_proc, hp, Proc.closed])
      (view_eq_of_ofile hs hstep (by simp [put_proc, Proc.closed]))
      (Or.inl (by simp [put_proc, Proc.closed])) (by simp [put_proc, Proc.closed])
  · obtain ⟨u, hu, rfl⟩ := Option.map_eq_some_iff.mp h
    exact .on (by simp [put_proc, hp]) (view_eq_of_ofile hs hstep (by simp [put_proc]))
      (Or.inl (by simp [put_proc])) (by simp [put_proc])
  · split at h
    · cases h
    · next rf htask =>
      split at h
      · obtain rfl := Option.some.inj h
        exact .pipeFail (by simp [put_proc, hp]) (view_eq_of_ofile hs hstep (by simp [put_proc]))
          (by simp [htask, Task.isPipe]) (by simp [put_proc]) (by simp [put_proc])
      · next u wf hu =>
        obtain rfl := Option.some.inj h
        exact .on (by simp [put_proc, hp]) (view_eq_of_ofile hs hstep (by simp [put_proc]))
          (Or.inr ⟨by simp [htask, Task.isPipe], by simp [put_proc, Task.isPipe]⟩)
          (by simp [put_proc])
    · next rf wf htask => exact pipeEnd_worked hs hp hstep htask h
    · next np i htask => exact forkStep_worked hs hp hstep htask h
    · next fd htask => exact exitStep_worked hs hp hstep htask h

/-! ## What a step leaves alone -/

def Label.actor : Label → Fin nproc
  | .call p _ | .work p _ _ | .reap p => p

theorem map_put {α : Type*} {o : Option α} {k : α → State} (hq : q ≠ p) (h : o.map k = some t)
    (hput : ∀ a, ∃ u x, k a = s.put u p x) : t.proc q = s.proc q := by
  obtain ⟨a, -, rfl⟩ := Option.map_eq_some_iff.mp h
  obtain ⟨u, x, hk⟩ := hput a
  rw [hk, put_proc, if_neg hq]

theorem some_put {u : Table} {x : Proc} (hq : q ≠ p) (h : some (s.put u p x) = some t) :
    t.proc q = s.proc q := by
  obtain rfl := Option.some.inj h
  rw [put_proc, if_neg hq]

theorem call_proc_of_ne {c : Call} (h : call s p c = some t) (hq : q ≠ p)
    (hfork : ∀ pid, c ≠ .fork q pid) : t.proc q = s.proc q := by
  cases c with
  | «open» device ip omode =>
    simp only [call, sysOpen] at h
    split at h
    · exact some_put hq h
    · split at h <;> exact some_put hq h
  | dup fd =>
    simp only [call, sysDup] at h
    split at h
    · exact some_put hq h
    · split at h
      · exact some_put hq h
      · exact map_put hq h fun _ => ⟨_, _, rfl⟩
  | close fd =>
    simp only [call, sysClose] at h
    split at h
    · exact some_put hq h
    · exact map_put hq h fun _ => ⟨_, _, rfl⟩
  | pipe =>
    simp only [call, sysPipe] at h
    split at h <;> exact some_put hq h
  | fork np pid =>
    simp only [call, Option.ite_none_right_eq_some, Option.some.injEq] at h
    obtain ⟨-, rfl⟩ := h
    have hnp : q ≠ np := fun hnp => hfork pid (hnp ▸ rfl)
    simp [put_proc, hq, hnp]
  | exit =>
    simp only [call, Option.ite_none_left_eq_some] at h
    exact some_put hq h.2

theorem work_proc_of_ne {page : Option Nat} {copyout : Bool} (h : work s p page copyout = some t)
    (hq : q ≠ p) (hfork : ∀ i, (s.proc p).task ≠ .forkCopy q i) : t.proc q = s.proc q := by
  unfold work at h
  split at h
  · exact map_put hq h fun _ => ⟨_, _, rfl⟩
  · exact map_put hq h fun _ => ⟨_, _, rfl⟩
  · split at h
    · cases h
    · split at h <;> exact some_put hq h
    · unfold pipeEnd at h
      split at h
      · exact some_put hq h
      · split at h
        · cases h
        · split at h <;> exact some_put hq h
    · next np i htask =>
      have hnp : q ≠ np := fun hnp => hfork i (hnp ▸ htask)
      unfold forkStep at h
      split at h
      · split at h
        · exact some_put hq h
        · obtain ⟨u, -, rfl⟩ := Option.map_eq_some_iff.mp h
          simp [put_proc, hq, hnp]
      · obtain rfl := Option.some.inj h
        simp [put_proc, hq, hnp]
    · unfold exitStep at h
      split at h
      · split at h
        · exact some_put hq h
        · exact map_put hq h fun _ => ⟨_, _, rfl⟩
      · exact some_put hq h

/-- A step changes the process that makes it, and a child that this process sets up. -/
theorem step_proc_of_ne (h : step s l = some t) (hq : q ≠ l.actor)
    (hcall : ∀ p pid, l ≠ .call p (.fork q pid))
    (htask : ∀ i, (s.proc l.actor).task ≠ .forkCopy q i) : t.proc q = s.proc q := by
  cases l with
  | reap p =>
    simp only [step, Option.ite_none_right_eq_some] at h
    exact some_put hq h.2
  | call p c =>
    simp only [step, Option.ite_none_right_eq_some] at h
    exact call_proc_of_ne h.2 hq fun pid hc => hcall p pid (hc ▸ rfl)
  | work p page copyout => exact work_proc_of_ne h hq htask

/-! ## Who can have an end of a pipe -/

theorem View.has_set {v : View} {fd : Fin nofile} {x : Option Kind} {pi : Nat}
    (h : (v.set fd x).Has pi) : v.Has pi ∨ ∃ writable, x = some (some (pi, writable)) := by
  obtain ⟨i, writable, hi⟩ := h
  by_cases hfd : i = fd
  · exact Or.inr ⟨writable, by simpa [View.set, hfd] using hi⟩
  · exact Or.inl ⟨i, writable, by simpa [View.set, hfd] using hi⟩

theorem View.has_of_get {v : View} {fd : Int} {i : Fin nofile} {pi : Nat} {writable : Bool}
    (h : v.get fd = some (i, some (pi, writable))) : v.Has pi := by
  unfold View.get at h
  split at h
  · simp only [Option.map_eq_some_iff, Prod.mk.injEq] at h
    obtain ⟨x, hx, -, rfl⟩ := h
    exact ⟨_, _, hx⟩
  · cases h

theorem file_of_view {fd : Fin nofile} {pi : Nat} {writable : Bool}
    (h : s.view p fd = some (some (pi, writable))) : ∃ f, (s.proc p).ofile fd = some f ∧
      (s.table.file f).type = .pipe ∧ (s.table.file f).pipe = pi ∧
      (s.table.file f).writable = writable := by
  obtain ⟨f, hf, hkind⟩ := Option.map_eq_some_iff.mp h
  have htype : (s.table.file f).type = .pipe := by
    by_contra hne
    simp [File.kind, hne] at hkind
  exact ⟨f, hf, htype, by simpa [File.kind, htype] using hkind⟩

theorem allocated_of_has (hs : s.Inv) {pi : Nat} (h : (s.view p).Has pi) :
    s.table.pipe pi ≠ none := by
  obtain ⟨fd, writable, hfd⟩ := h
  obtain ⟨f, hf, hfile⟩ := file_of_view hfd
  have hopen := (hs.isOpen_iff_held (pi, writable)).mpr
    ⟨p, Or.inl ⟨f, mem_held_of_ofile hf, hfile⟩⟩
  intro hnone
  simp [Table.isOpen, hnone] at hopen

theorem call_has {c : Call} {pi : Nat} (hs : s.Inv) (h : step s (.call p c) = some t)
    (hpi : (t.view p).Has pi) : (s.view p).Has pi := by
  cases c with
  | «open» device ip omode =>
    obtain ⟨-, -, ⟨-, hview⟩ | ⟨fd, -, -, hview⟩⟩ := open_view hs h
    · rwa [hview] at hpi
    · rw [hview] at hpi
      exact (View.has_set hpi).resolve_right (by simp)
  | dup fd =>
    obtain ⟨-, -, hview⟩ := dup_view hs h
    split at hview
    · next i x n hget _ =>
      rw [hview.2] at hpi
      obtain hold | ⟨writable, hx⟩ := View.has_set hpi
      · exact hold
      · obtain rfl := Option.some.inj hx
        exact View.has_of_get hget
    · rwa [hview.2] at hpi
  | close fd =>
    obtain ⟨-, -, hview⟩ := close_view hs h
    split at hview
    · rw [hview.2] at hpi
      exact (View.has_set hpi).resolve_right (by simp)
    · rwa [hview.2] at hpi
  | pipe => rwa [(pipe_view hs h).2.1] at hpi
  | fork np pid => rwa [(fork_view hs h).2.2.1] at hpi
  | exit => rwa [(exit_view hs h).2.1] at hpi

theorem Worked.has {page : Option Nat} {pi : Nat} (h : Worked s t p page)
    (hpi : (t.view p).Has pi) :
    (s.view p).Has pi ∨ s.table.pipe pi = none ∧ (s.proc p).task.isPipe := by
  cases h with
  | on _ hview | pipeFail _ hview | forkGo _ _ _ hview | forkDone _ _ _ hview =>
    rw [hview] at hpi
    exact Or.inl hpi
  | pipeDone qi fd0 fd1 _ _ hpage _ _ hview hold =>
    rw [hview] at hpi
    have hnew : ∀ writable x : Bool, some (some (qi, writable)) = some (some (pi, x)) →
        s.table.pipe pi = none ∧ (s.proc p).task.isPipe := fun writable x hx => by
      simp only [Option.some.injEq, Prod.mk.injEq] at hx
      exact ⟨hx.1 ▸ hpage, hold⟩
    obtain hpi | ⟨x, hx⟩ := View.has_set hpi
    · obtain hpi | ⟨x, hx⟩ := View.has_set hpi
      · exact Or.inl hpi
      · exact Or.inr (hnew _ x hx)
    · exact Or.inr (hnew _ x hx)
  | exiting _ hview =>
    obtain ⟨fd, writable, hfd⟩ := hpi
    obtain hsame | hnone := hview fd
    · exact Or.inl ⟨fd, writable, hsame ▸ hfd⟩
    · simp [hnone] at hfd

/-- A child has what its parent has. -/
theorem child_has (ht : t.Inv) {i pi : Nat} (htask : (t.proc p).task = .forkCopy q i)
    (hpi : (t.view q).Has pi) : (t.view p).Has pi := by
  obtain ⟨fd, writable, hfd⟩ := hpi
  refine ⟨fd, writable, ?_⟩
  have hofile := (ht.forking p q i htask).2 fd
  split at hofile
  · rw [← hfd]
    simp [State.view, hofile]
  · simp [State.view, hofile] at hfd

/-- Nobody gets an end of a pipe but by a call of its own, or from its parent. -/
theorem has_of_step {pi : Nat} (hs : s.Inv) (h : step s l = some t) (hpi : (t.view q).Has pi) :
    (s.view q).Has pi ∨ (∃ i, (s.proc l.actor).task = .forkCopy q i ∧ (s.view l.actor).Has pi) ∨
      q = l.actor ∧ s.table.pipe pi = none ∧ (s.proc q).task.isPipe := by
  have hsame : (t.proc q).ofile = (s.proc q).ofile → (s.view q).Has pi := fun hofile => by
    rwa [view_eq_of_ofile hs h hofile] at hpi
  cases l with
  | reap p =>
    refine Or.inl (hsame ?_)
    simp only [step, Option.ite_none_right_eq_some, Option.some.injEq] at h
    obtain ⟨-, rfl⟩ := h
    by_cases hq : q = p
    · simp [put_proc, hq]
    · simp [put_proc, hq]
  | call p c =>
    by_cases hq : q = p
    · subst hq
      exact Or.inl (call_has hs h hpi)
    · refine Or.inl (hsame ?_)
      by_cases hfork : ∃ pid, c = .fork q pid
      · obtain ⟨pid, rfl⟩ := hfork
        simp only [step, call, Option.ite_none_right_eq_some, Option.some.injEq] at h
        obtain ⟨-, -, rfl⟩ := h
        simp [put_proc, hq]
      · simp only [step, Option.ite_none_right_eq_some] at h
        rw [call_proc_of_ne h.2 hq fun pid hc => hfork ⟨pid, hc⟩]
  | work p page copyout =>
    have hw := work_worked hs h
    by_cases hq : q = p
    · subst hq
      obtain hold | hnew := hw.has hpi
      · exact Or.inl hold
      · exact Or.inr (Or.inr ⟨rfl, hnew⟩)
    · by_cases hfork : ∃ i, (s.proc p).task = .forkCopy q i
      · obtain ⟨i, hi⟩ := hfork
        refine Or.inr (Or.inl ⟨i, hi, ?_⟩)
        change (s.view p).Has pi
        have ht := hs.step h
        cases hw with
        | on _ hview htask =>
          have htask := (htask.resolve_right (by simp [hi, Task.isPipe])).trans hi
          exact hview ▸ child_has ht htask hpi
        | pipeFail _ _ hold | pipeDone _ _ _ _ _ _ _ _ _ hold => simp [hi, Task.isPipe] at hold
        | forkGo np j _ hview hold htask =>
          obtain ⟨rfl, rfl⟩ : np = q ∧ j = i := by simpa [hi, eq_comm] using hold
          exact hview ▸ child_has ht htask hpi
        | forkDone np j _ _ hold _ _ _ _ _ hchildview =>
          obtain ⟨rfl, rfl⟩ : np = q ∧ j = i := by simpa [hi, eq_comm] using hold
          rwa [hchildview] at hpi
        | exiting _ _ hold => simp [hi] at hold
      · refine Or.inl (hsame ?_)
        rw [step_proc_of_ne h hq (by simp) fun i hi => hfork ⟨i, hi⟩]

/-- While no file is being closed, an end of a pipe is open if a process has a number for it. -/
theorem State.Inv.isOpen_iff_view (h : s.Inv) (hclosing : ∀ p, (s.proc p).closing = []) {pi : Nat}
    {writable : Bool} : s.table.isOpen (pi, writable) = true ↔
      ∃ p fd, s.view p fd = some (some (pi, writable)) := by
  rw [h.isOpen_iff_held]
  constructor
  · rintro ⟨p, ⟨f, hf, htype, hpipe, hwritable⟩ | hlate⟩
    · obtain hdesc | hrest := Multiset.mem_add.mp hf
      · obtain ⟨fd, hfd⟩ := mem_entries.mp (show f ∈ entries (s.proc p).ofile from hdesc)
        exact ⟨p, fd, by simp [State.view, hfd, File.kind, htype, hpipe, hwritable]⟩
      · -- the other files that a process has are those it is making, without a type yet
        have hfresh : f ∈ (s.owns p).fresh := by
          simpa [State.owns, Proc.own, hclosing p] using hrest
        simp [(h.table.unset p f hfresh).2] at htype
    · simp [Proc.own, hclosing p] at hlate
  · rintro ⟨p, fd, hfd⟩
    obtain ⟨f, hf, hfile⟩ := file_of_view hfd
    exact ⟨p, Or.inl ⟨f, mem_held_of_ofile hf, hfile⟩⟩

end

end LiberalOS.Kernel.Files
