import Mathlib.Data.Fintype.Sum
import LiberalOS.Foundation.Counted
import LiberalOS.Foundation.Execution
import LiberalOS.Kernel.Scheduler

/-!
# The file table

`ftable` of `kernel/file.c` with the pipes of `kernel/pipe.c`, as far as opening and closing goes:
a file has a count of the references to it, and the last `fileclose` closes an end of a pipe, which
frees the pipe with its second end. An operation is its critical section under `ftable.lock` or
under the lock of the pipe. Pages of memory are numbers.

`Table.Inv` says what the counts mean, for any account of what each process has; there is one lemma
for each operation.
-/
namespace LiberalOS.Kernel.Files
open Foundation

abbrev nofile : Nat := 16
abbrev nfile : Nat := 100

/-! ## Operations -/

inductive FileType where
  | none
  | pipe
  | inode
  | device
  deriving DecidableEq

/-- `struct file` without `off` and `major`. -/
structure File where
  type : FileType
  ref : Nat
  readable : Bool
  writable : Bool
  pipe : Nat
  ip : Nat
  deriving DecidableEq

/-- The two flags of `struct pipe`. -/
structure Ends where
  readopen : Bool
  writeopen : Bool
  deriving DecidableEq

/-- `ftable`, and the pipes whose page is allocated. -/
structure Table where
  file : Fin nfile → File
  pipe : Nat → Option Ends

/-- The table at boot. -/
def Table.init : Table where
  file _ := ⟨.none, 0, false, false, 0, 0⟩
  pipe _ := none

def Table.setFile (t : Table) (f : Fin nfile) (x : File) : Table :=
  { t with file := Function.update t.file f x }

def Table.setPipe (t : Table) (pi : Nat) (e : Option Ends) : Table :=
  { t with pipe := Function.update t.pipe pi e }

def filealloc (t : Table) : Option (Table × Fin nfile) :=
  ((List.finRange nfile).find? fun f => (t.file f).ref = 0).map fun f =>
    (t.setFile f { t.file f with ref := 1 }, f)

/-- It panics when the file is free. -/
def filedup (t : Table) (f : Fin nfile) : Option Table :=
  if (t.file f).ref < 1 then none
  else some (t.setFile f { t.file f with ref := (t.file f).ref + 1 })

/-- The critical section of `fileclose`, with the copy `ff` if that was the last reference. It
panics when the file is free. -/
def fileclose (t : Table) (f : Fin nfile) : Option (Table × Option File) :=
  if (t.file f).ref < 1 then none
  else if 0 < (t.file f).ref - 1 then
    some (t.setFile f { t.file f with ref := (t.file f).ref - 1 }, none)
  else some (t.setFile f { t.file f with ref := 0, type := .none },
    some { t.file f with ref := (t.file f).ref - 1 })

def Ends.isOpen (e : Ends) (writable : Bool) : Bool := if writable then e.writeopen else e.readopen

def Ends.close (e : Ends) (writable : Bool) : Ends :=
  if writable then { e with writeopen := false } else { e with readopen := false }

/-- What is left of a pipe that loses an end; without its second end it is freed. -/
def Ends.after (e : Ends) (writable : Bool) : Option Ends :=
  if (e.close writable).readopen ∨ (e.close writable).writeopen then some (e.close writable)
  else none

/-- There is none on a page that has been freed. -/
def pipeclose (t : Table) (pi : Nat) (writable : Bool) : Option Table :=
  (t.pipe pi).map fun e => t.setPipe pi (e.after writable)

/-- The rest of `fileclose`. -/
def release (t : Table) (ff : File) : Option Table :=
  if ff.type = .pipe then pipeclose t ff.pipe ff.writable else some t

/-- What `pipealloc` does when it has two files and a page. -/
def Table.newPipe (t : Table) (rf wf : Fin nfile) (pi : Nat) : Table :=
  ((t.setPipe pi (some ⟨true, true⟩)).setFile rf
    { t.file rf with type := .pipe, readable := true, writable := false, pipe := pi }).setFile wf
    { t.file wf with type := .pipe, readable := false, writable := true, pipe := pi }

/-- What `sys_open` does with its file. -/
def Table.openFile (t : Table) (f : Fin nfile) (device : Bool) (ip : Nat) (omode : Nat) : Table :=
  t.setFile f { t.file f with
    type := if device then .device else .inode
    ip := ip
    readable := omode &&& 1 = 0
    writable := omode &&& 1 ≠ 0 ∨ omode &&& 2 ≠ 0 }

@[simp] theorem Table.setFile_pipe (t : Table) (f : Fin nfile) (x : File) :
    (t.setFile f x).pipe = t.pipe := rfl

@[simp] theorem Table.setPipe_file (t : Table) (pi : Nat) (e : Option Ends) :
    (t.setPipe pi e).file = t.file := rfl

@[grind =] theorem Table.setFile_file (t : Table) (f g : Fin nfile) (x : File) :
    (t.setFile f x).file g = if g = f then x else t.file g := by
  simp [Table.setFile, Function.update_apply]

@[grind =] theorem Table.setPipe_pipe (t : Table) (pi qi : Nat) (e : Option Ends) :
    (t.setPipe pi e).pipe qi = if qi = pi then e else t.pipe qi := by
  simp [Table.setPipe, Function.update_apply]

/-! ## What the counts mean -/

/-- What a process has: the files of its descriptors, others in the call it is in, of these the
ones that no one has set up yet, and the ends of pipes it is going to close. -/
structure Own where
  desc : Multiset (Fin nfile)
  rest : Multiset (Fin nfile)
  fresh : Multiset (Fin nfile)
  late : Multiset (Nat × Bool)

def Own.held (w : Own) : Multiset (Fin nfile) := w.desc + w.rest

/-- The end of a pipe that a file stands for: the page, and whether it is the write end. -/
def File.ends (x : File) : Multiset (Nat × Bool) :=
  if x.type = .pipe then {(x.pipe, x.writable)} else 0

def Table.isOpen (t : Table) (e : Nat × Bool) : Bool := (t.pipe e.1).elim false (·.isOpen e.2)

/-- What has each open end. -/
def Table.endHolders (t : Table) (o : Fin nproc → Own) :
    Fin nfile ⊕ Fin nproc → Multiset (Nat × Bool) :=
  Sum.elim (fun f => (t.file f).ends) fun p => (o p).late

structure Table.Inv (t : Table) (o : Fin nproc → Own) : Prop where
  refs : Counted (fun f => (t.file f).ref) fun p => (o p).held
  ends : Counted (fun e => (t.isOpen e).toNat) (t.endHolders o)
  free : ∀ f, (t.file f).ref = 0 → (t.file f).type = .none
  typed : ∀ p, ∀ f ∈ (o p).desc, (t.file f).type ≠ .none
  fresh : ∀ p, (o p).fresh ≤ (o p).rest
  unset : ∀ p, ∀ f ∈ (o p).fresh, (t.file f).ref = 1 ∧ (t.file f).type = .none
  pipes : ∀ pi e, t.pipe pi = some e → e.readopen ∨ e.writeopen
  mode : ∀ f, (t.file f).type = .pipe → (t.file f).readable = !(t.file f).writable

/-! ## What each operation keeps -/

section
variable {t u : Table} {o : Fin nproc → Own} {w : Own} {p : Fin nproc} {f : Fin nfile}

theorem Table.Inv.ref_pos (h : t.Inv o) (hf : f ∈ (o p).held) : 0 < (t.file f).ref := by
  have := h.refs.pos hf
  exact this

theorem Table.Inv.fresh_le (h : t.Inv o) (p : Fin nproc) : (o p).fresh ≤ (o p).held :=
  (h.fresh p).trans (Multiset.le_add_left _ _)

/-- A file that is being set up belongs to one process. -/
theorem Table.Inv.notMem_of_unset (h : t.Inv o) {q : Fin nproc} (hf : f ∈ (o p).fresh)
    (hne : q ≠ p) : f ∉ (o q).held := by
  intro hq
  have hp : f ∈ (o p).held := Multiset.subset_of_le (h.fresh_le p) hf
  exact hne (h.refs.eq_of_ref_eq_one (h.unset p f hf).1 hq hp)

theorem Table.Inv.nodup_fresh (h : t.Inv o) (p : Fin nproc) : (o p).fresh.Nodup := by
  rw [Multiset.nodup_iff_count_le_one]
  intro f
  by_cases hf : f ∈ (o p).fresh
  · have hone := (h.unset p f hf).1
    have hle := h.refs.count_le p f
    exact (Multiset.count_le_of_le f (h.fresh_le p)).trans (hle.trans hone.le)
  · simp [Multiset.count_eq_zero.mpr hf]

/-- The ends stay with their holders when no file changes its end. -/
theorem Table.Inv.ends_of_same (h : t.Inv o) (hpipe : u.pipe = t.pipe)
    (hfile : ∀ g, (u.file g).ends = (t.file g).ends) (hlate : w.late = (o p).late) :
    Counted (fun e => (u.isOpen e).toNat) (u.endHolders (Function.update o p w)) := by
  have hholders : u.endHolders (Function.update o p w) = t.endHolders o := by
    funext x
    cases x with
    | inl g => exact hfile g
    | inr q =>
      by_cases hq : q = p
      · subst hq
        simpa [Table.endHolders] using hlate
      · simp [Table.endHolders, hq]
  have hopen : (fun e => (u.isOpen e).toNat) = fun e => (t.isOpen e).toNat := by
    simp [Table.isOpen, hpipe]
  rw [hholders, hopen]
  exact h.ends

/-- A count changes with what one process has. -/
theorem Table.Inv.setRef {r : Nat} (h : t.Inv o) (hpos : 0 < r)
    (hcount : ∀ g, (if g = f then r else (t.file g).ref) + (o p).held.count g =
      (t.file g).ref + w.held.count g)
    (htyped : ∀ g ∈ w.desc, (t.file g).type ≠ .none) (hfresh : w.fresh ≤ w.rest)
    (hunset : ∀ g ∈ w.fresh,
      (if g = f then r else (t.file g).ref) = 1 ∧ (t.file g).type = .none)
    (hother : ∀ q, q ≠ p → f ∉ (o q).fresh) (hlate : w.late = (o p).late) :
    (t.setFile f { t.file f with ref := r }).Inv (Function.update o p w) := by
  refine ⟨?_, h.ends_of_same rfl (by grind [File.ends]) hlate, ?_, ?_, ?_, ?_, h.pipes, ?_⟩
  · refine h.refs.of_change p (fun q hq => by simp [hq]) fun g => ?_
    have := hcount g
    grind
  · grind [h.free]
  · intro q g hg
    have := h.typed q g
    by_cases hq : q = p
    · subst hq
      grind
    · grind
  · intro q
    by_cases hq : q = p
    · subst hq
      simpa using hfresh
    · simpa [hq] using h.fresh q
  · intro q g hg
    have := h.unset q g
    by_cases hq : q = p
    · subst hq
      have := hunset g (by simpa using hg)
      grind
    · have := hother q hq
      grind
  · grind [h.mode]

theorem filealloc_eq_some (hu : filealloc t = some (u, f)) :
    (t.file f).ref = 0 ∧ u = t.setFile f { t.file f with ref := 1 } := by
  simp only [Files.filealloc, Option.map_eq_some_iff, Prod.mk.injEq] at hu
  obtain ⟨g, hg, rfl, rfl⟩ := hu
  exact ⟨by simpa using List.find?_some hg, rfl⟩

/-- The process gets the new file. -/
theorem Table.Inv.filealloc (h : t.Inv o) (hu : filealloc t = some (u, f))
    (hd : w.desc = (o p).desc) (hr : w.rest = f ::ₘ (o p).rest)
    (hf : w.fresh ≤ f ::ₘ (o p).fresh) (hle : w.fresh ≤ w.rest) (hl : w.late = (o p).late) :
    u.Inv (Function.update o p w) := by
  obtain ⟨hzero, rfl⟩ := filealloc_eq_some hu
  have hnew : ∀ q, f ∉ (o q).held := h.refs.notMem hzero
  refine h.setRef (by omega) (fun g => ?_) (hd ▸ h.typed p) hle (fun g hg => ?_)
    (fun q _ hq => ?_) hl
  · have : (o p).held.count f = 0 := Multiset.count_eq_zero.mpr (hnew p)
    by_cases hg : g = f
    · subst hg
      simp_all [Own.held]
    · simp [Own.held, hd, hr, hg]
  · have hg := Multiset.subset_of_le hf hg
    have := h.unset p g
    have := h.free f hzero
    have : f ∉ (o p).fresh := fun hmem => hnew p (Multiset.subset_of_le (h.fresh_le p) hmem)
    grind
  · exact hnew q (Multiset.subset_of_le (h.fresh_le q) hq)

theorem filedup_eq_some (hu : filedup t f = some u) :
    0 < (t.file f).ref ∧ u = t.setFile f { t.file f with ref := (t.file f).ref + 1 } := by
  simp only [Files.filedup, Option.ite_none_left_eq_some, Option.some.injEq] at hu
  exact ⟨by omega, hu.2.symm⟩

/-- The process gets one more descriptor for a file. -/
theorem Table.Inv.filedup (h : t.Inv o) (hu : filedup t f = some u)
    (htype : (t.file f).type ≠ .none) (hd : w.desc = f ::ₘ (o p).desc) (hr : w.rest = (o p).rest)
    (hf : w.fresh = (o p).fresh) (hl : w.late = (o p).late) : u.Inv (Function.update o p w) := by
  obtain ⟨hpos, rfl⟩ := filedup_eq_some hu
  have hset : ∀ q, f ∉ (o q).fresh := fun q hq => htype (h.unset q f hq).2
  refine h.setRef (by omega) (fun g => ?_) (fun g hg => ?_) (by simpa [hr, hf] using h.fresh p)
    (fun g hg => ?_) (fun q _ => hset q) hl
  · simp only [Own.held, hd, hr, Multiset.cons_add, Multiset.count_cons, Multiset.count_add]
    grind
  · rw [hd] at hg
    have := h.typed p g
    grind
  · rw [hf] at hg
    have := h.unset p g hg
    grind

theorem fileclose_eq_some {ff : Option File} (hu : fileclose t f = some (u, ff)) :
    (1 < (t.file f).ref ∧ ff = none ∧ u = t.setFile f { t.file f with ref := (t.file f).ref - 1 }) ∨
      ((t.file f).ref = 1 ∧ ff = some { t.file f with ref := 0 } ∧
        u = t.setFile f { t.file f with ref := 0, type := .none }) := by
  simp only [Files.fileclose] at hu
  split at hu
  · cases hu
  · split at hu
    · simp only [Option.some.injEq, Prod.mk.injEq] at hu
      exact Or.inl ⟨by omega, hu.2.symm, hu.1.symm⟩
    · have hone : (t.file f).ref = 1 := by omega
      simp only [Option.some.injEq, Prod.mk.injEq, hone] at hu
      exact Or.inr ⟨hone, hu.2.symm, hu.1.symm⟩

theorem fileclose_isSome (h : t.Inv o) (hf : f ∈ (o p).held) : (fileclose t f).isSome := by
  have := h.ref_pos hf
  unfold Files.fileclose
  split
  · omega
  · split <;> rfl

/-- The process loses a reference, and with the last one the file loses its end. -/
theorem Table.Inv.fileclose {ff : Option File} (h : t.Inv o) (hu : fileclose t f = some (u, ff))
    (hheld : f ::ₘ w.held = (o p).held) (hd : w.desc ≤ (o p).desc) (hr : w.fresh ≤ w.rest)
    (hf : w.fresh ≤ (o p).fresh) (hl : w.late = ff.elim 0 File.ends + (o p).late) :
    u.Inv (Function.update o p w) := by
  have hcount : ∀ g, w.held.count g + (if g = f then 1 else 0) = (o p).held.count g := fun g => by
    rw [← hheld, Multiset.count_cons]
  have hmem : f ∈ (o p).held := hheld ▸ Multiset.mem_cons_self f _
  have hle := h.refs.count_le p f
  have hown : w.fresh ≤ w.held := hr.trans (Multiset.le_add_left _ _)
  have htyped : ∀ g ∈ w.desc, (t.file g).type ≠ .none := fun g hg =>
    h.typed p g (Multiset.subset_of_le hd hg)
  have hunset : ∀ g ∈ w.fresh, g ≠ f ∧ (t.file g).ref = 1 ∧ (t.file g).type = .none := by
    intro g hg
    have hg' := h.unset p g (Multiset.subset_of_le hf hg)
    refine ⟨?_, hg'⟩
    rintro rfl
    have := Multiset.count_pos.mpr (Multiset.subset_of_le hown hg)
    have := hcount g
    grind
  have hother : ∀ q, q ≠ p → f ∉ (o q).fresh := fun q hq hmemq =>
    h.notMem_of_unset hmemq hq.symm hmem
  obtain ⟨hone, rfl, rfl⟩ | ⟨hone, rfl, rfl⟩ := fileclose_eq_some hu
  · refine h.setRef (by omega) (fun g => ?_) htyped hr (by grind) hother (by simpa using hl)
    have := hcount g
    grind
  · -- nobody has the file any more
    have hgone : ∀ q, f ∉ (Function.update o p w q).held := by
      intro q hmemq
      by_cases hq : q = p
      · subst hq
        have := Multiset.count_pos.mpr hmemq
        have := hcount f
        simp_all
        omega
      · rw [Function.update_of_ne hq] at hmemq
        exact hq (h.refs.eq_of_ref_eq_one hone hmemq hmem)
    have hdesc : ∀ q, ∀ g ∈ (Function.update o p w q).desc, g ≠ f ∧ (t.file g).type ≠ .none := by
      intro q g hg
      refine ⟨?_, ?_⟩
      · rintro rfl
        exact hgone q (Multiset.mem_add.mpr (Or.inl hg))
      · by_cases hq : q = p
        · subst hq
          exact htyped g (by simpa using hg)
        · exact h.typed q g (by simpa [hq] using hg)
    refine ⟨?_, ?_, ?_, ?_, ?_, ?_, h.pipes, ?_⟩
    · refine h.refs.of_change p (fun q hq => by simp [hq]) fun g => ?_
      have := hcount g
      grind
    · refine h.ends.of_move (i := .inl f) (j := .inr p) (by simp) (fun x hx hx' => ?_) ?_
      · cases x with
        | inl g =>
          have hg : g ≠ f := by simpa using hx
          simp [Table.endHolders, Table.setFile_file, hg]
        | inr q =>
          have hq : q ≠ p := by simpa using hx'
          simp [Table.endHolders, hq]
      · simp [Table.endHolders, Table.setFile_file, hl, File.ends]
    · grind [h.free]
    · grind
    · intro q
      by_cases hq : q = p
      · subst hq
        simpa using hr
      · simpa [hq] using h.fresh q
    · intro q g hg
      by_cases hq : q = p
      · subst hq
        have := hunset g (by simpa using hg)
        grind
      · have := h.unset q g
        have := hother q hq
        grind
    · grind [h.mode]

theorem Ends.after_isOpen (e : Ends) (writable x : Bool) :
    (e.after writable).elim false (·.isOpen x) = (decide (x ≠ writable) && e.isOpen x) := by
  obtain ⟨r, w⟩ := e
  revert writable x r w
  decide

theorem isOpen_setPipe {pi : Nat} {e : Ends} (he : t.pipe pi = some e) (writable : Bool)
    (x : Nat × Bool) : (t.setPipe pi (e.after writable)).isOpen x =
      if x = (pi, writable) then false else t.isOpen x := by
  obtain ⟨qi, y⟩ := x
  by_cases hpi : qi = pi
  · subst hpi
    by_cases hy : y = writable <;>
      simp [Table.isOpen, Table.setPipe_pipe, Ends.after_isOpen, he, hy]
  · simp [Table.isOpen, Table.setPipe_pipe, hpi]

/-- A process closes an end it has had from its last `fileclose`. -/
theorem Table.Inv.release (ff : File) (h : t.Inv o) (hd : w.desc = (o p).desc)
    (hr : w.rest = (o p).rest) (hf : w.fresh = (o p).fresh) (hl : (o p).late = ff.ends + w.late) :
    ∃ u, Files.release t ff = some u ∧ u.Inv (Function.update o p w) := by
  by_cases htype : ff.type = .pipe
  · have hends : ff.ends = {(ff.pipe, ff.writable)} := if_pos htype
    have hmem : (ff.pipe, ff.writable) ∈ (o p).late := by simp [hl, hends]
    have hpos := h.ends.pos (i := .inr p) hmem
    have hopen : t.isOpen (ff.pipe, ff.writable) = true := by
      cases hopen : t.isOpen (ff.pipe, ff.writable) <;> simp_all
    cases he : t.pipe ff.pipe with
    | none => simp [Table.isOpen, he] at hopen
    | some e =>
      have hw (q) : (Function.update o p w q).desc = (o q).desc ∧
          (Function.update o p w q).rest = (o q).rest ∧
          (Function.update o p w q).fresh = (o q).fresh := by
        by_cases hq : q = p
        · subst hq
          simp [hd, hr, hf]
        · simp [hq]
      refine ⟨t.setPipe ff.pipe (e.after ff.writable),
        by simp [Files.release, htype, pipeclose, he], ?_, ?_, h.free, ?_, ?_, ?_, ?_, h.mode⟩
      · have hheld : (fun q => (Function.update o p w q).held) = fun q => (o q).held :=
          funext fun q => by simp [Own.held, hw]
        rw [hheld]
        exact h.refs
      · refine h.ends.of_change (.inr p) (fun x hx => ?_) fun x => ?_
        · cases x with
          | inl g => rfl
          | inr q =>
            have hq : q ≠ p := by simpa using hx
            simp [Table.endHolders, hq]
        · simp only [isOpen_setPipe he, Table.endHolders, Sum.elim_inr, Function.update_self, hl,
            hends, Multiset.count_add, Multiset.count_singleton]
          grind
      · simpa [hw] using h.typed
      · simpa [hw] using h.fresh
      · simpa [hw] using h.unset
      · intro pi x hx
        by_cases hpi : pi = ff.pipe
        · subst hpi
          rw [Table.setPipe_pipe, if_pos rfl, Ends.after] at hx
          grind
        · rw [Table.setPipe_pipe, if_neg hpi] at hx
          exact h.pipes pi x hx
  · have hends : ff.ends = 0 := if_neg htype
    have hw : w = o p := by
      cases w
      cases hop : o p
      simp_all
    refine ⟨t, if_neg htype, ?_⟩
    rwa [hw, Function.update_eq_self]

/-- Files get their type; they were in a process's hands alone. -/
theorem Table.Inv.setUp {F : Finset (Fin nfile)} (h : t.Inv o) (hF : ∀ g ∈ F, g ∈ (o p).fresh)
    (hw : ∀ g ∈ w.fresh, g ∈ (o p).fresh ∧ g ∉ F) (hr : w.fresh ≤ w.rest)
    (hheld : w.held = (o p).held) (hdesc : ∀ g ∈ w.desc, g ∈ (o p).desc ∨ g ∈ F)
    (href : ∀ g, (u.file g).ref = (t.file g).ref) (hsame : ∀ g, g ∉ F → u.file g = t.file g)
    (htype : ∀ g ∈ F, (u.file g).type ≠ .none)
    (hmode : ∀ g ∈ F, (u.file g).type = .pipe → (u.file g).readable = !(u.file g).writable)
    (hends : Counted (fun e => (u.isOpen e).toNat) (u.endHolders (Function.update o p w)))
    (hpipes : ∀ pi e, u.pipe pi = some e → e.readopen ∨ e.writeopen) :
    u.Inv (Function.update o p w) := by
  refine ⟨?_, hends, ?_, ?_, ?_, ?_, hpipes, ?_⟩
  · refine h.refs.of_change p (fun q hq => by simp [hq]) fun g => ?_
    simp [href, hheld]
  · intro g hg
    by_cases hgF : g ∈ F
    · have := (h.unset p g (hF g hgF)).1
      rw [href] at hg
      omega
    · rw [hsame g hgF] at hg ⊢
      exact h.free g hg
  · intro q g hg
    by_cases hgF : g ∈ F
    · exact htype g hgF
    · rw [hsame g hgF]
      by_cases hq : q = p
      · subst hq
        exact h.typed q g ((hdesc g (by simpa using hg)).resolve_right hgF)
      · exact h.typed q g (by simpa [hq] using hg)
  · intro q
    by_cases hq : q = p
    · subst hq
      simpa using hr
    · simpa [hq] using h.fresh q
  · intro q g hg
    by_cases hq : q = p
    · subst hq
      obtain ⟨hold, hgF⟩ := hw g (by simpa using hg)
      rw [hsame g hgF]
      exact h.unset q g hold
    · have hg' : g ∈ (o q).fresh := by simpa [hq] using hg
      have hgF : g ∉ F := fun hgF => h.notMem_of_unset (hF g hgF) hq
        (Multiset.subset_of_le (h.fresh_le q) hg')
      rw [hsame g hgF]
      exact h.unset q g hg'
  · intro g hg
    by_cases hgF : g ∈ F
    · exact hmode g hgF hg
    · rw [hsame g hgF] at hg ⊢
      exact h.mode g hg

/-- A process gives up setting files up. -/
theorem Table.Inv.forget (h : t.Inv o) (hd : w.desc = (o p).desc) (hr : w.rest = (o p).rest)
    (hf : w.fresh ≤ (o p).fresh) (hl : w.late = (o p).late) : t.Inv (Function.update o p w) :=
  h.setUp (F := ∅) (by simp) (fun _ hg => ⟨Multiset.subset_of_le hf hg, by simp⟩)
    (hr ▸ hf.trans (h.fresh p)) (by simp [Own.held, hd, hr]) (fun _ hg => Or.inl (hd ▸ hg))
    (fun _ => rfl) (fun _ _ => rfl) (by simp) (by simp) (h.ends_of_same rfl (fun _ => rfl) hl)
    h.pipes

/-- `sys_open` has a file and no descriptor for it yet, or has found one just now. -/
theorem Table.Inv.openFile {device : Bool} {ip omode : Nat} (h : t.Inv o)
    (hfresh : (o p).fresh = f ::ₘ w.fresh) (hheld : w.held = (o p).held) (hr : w.fresh ≤ w.rest)
    (hdesc : ∀ g ∈ w.desc, g ∈ (o p).desc ∨ g = f) (hl : w.late = (o p).late) :
    (t.openFile f device ip omode).Inv (Function.update o p w) := by
  have hmem : f ∈ (o p).fresh := by simp [hfresh]
  have hnew := (h.unset p f hmem).2
  have hf : f ∉ w.fresh := (Multiset.nodup_cons.mp (hfresh ▸ h.nodup_fresh p)).1
  refine h.setUp (F := {f}) (by simpa using hmem) (fun g hg => ⟨?_, ?_⟩) hr hheld
    (by simpa using hdesc) (by grind [Table.openFile]) (by grind [Table.openFile])
    (by grind [Table.openFile]) (by grind [Table.openFile]) ?_ h.pipes
  · grind
  · grind
  · exact h.ends_of_same rfl (by grind [Table.openFile, File.ends]) hl

/-- A new pipe has both ends open, and its files have them. -/
theorem Table.Inv.newPipe {rf wf : Fin nfile} {pi : Nat} (h : t.Inv o) (hpi : t.pipe pi = none)
    (hfresh : (o p).fresh = rf ::ₘ wf ::ₘ w.fresh) (hheld : w.held = (o p).held)
    (hr : w.fresh ≤ w.rest) (hdesc : ∀ g ∈ w.desc, g ∈ (o p).desc ∨ g = rf ∨ g = wf)
    (hl : w.late = (o p).late) : (t.newPipe rf wf pi).Inv (Function.update o p w) := by
  have hnodup := h.nodup_fresh p
  simp only [hfresh, Multiset.nodup_cons, Multiset.mem_cons, not_or] at hnodup
  obtain ⟨⟨hne, hrf⟩, hwf, -⟩ := hnodup
  have hnew : ∀ g, g = rf ∨ g = wf → (t.file g).type = .none := fun g hg =>
    (h.unset p g (by rw [hfresh]; grind)).2
  have hfile : ∀ g, g ≠ rf → g ≠ wf → (t.newPipe rf wf pi).file g = t.file g := by
    grind [Table.newPipe, Table.setPipe_file]
  refine h.setUp (F := {rf, wf}) (fun g hg => ?_) (fun g hg => ?_) hr hheld (by simpa using hdesc)
    (by grind [Table.newPipe, Table.setPipe_file]) (by simpa using hfile)
    (by grind [Table.newPipe, Table.setPipe_file]) (by grind [Table.newPipe, Table.setPipe_file])
    ?_ ?_
  · rw [hfresh]
    grind
  · rw [hfresh]
    grind
  · have hopen : ∀ e, (t.newPipe rf wf pi).isOpen e = (t.isOpen e || decide (e.1 = pi)) := by
      rintro ⟨qi, x⟩
      by_cases hqi : qi = pi
      · subst hqi
        simp [Table.newPipe, Table.isOpen, Table.setPipe_pipe, Ends.isOpen]
      · simp [Table.newPipe, Table.isOpen, Table.setPipe_pipe, hqi]
    have hclosed : ∀ x, t.isOpen (pi, x) = false := by simp [Table.isOpen, hpi]
    have hzero : ∀ g, g = rf ∨ g = wf → (t.file g).ends = 0 := fun g hg => by
      simp [File.ends, hnew g hg]
    have hrends : ((t.newPipe rf wf pi).file rf).ends = {(pi, false)} := by
      simp [Table.newPipe, Table.setFile_file, File.ends, hne]
    have hwends : ((t.newPipe rf wf pi).file wf).ends = {(pi, true)} := by
      simp [Table.newPipe, Table.setFile_file, File.ends]
    -- the read end first
    have hread : Counted (fun e => (t.isOpen e).toNat + if e = (pi, false) then 1 else 0)
        (Function.update (t.endHolders o) (.inl rf) {(pi, false)}) := by
      refine h.ends.of_change (.inl rf) (fun x hx => Function.update_of_ne hx _ _) fun e => ?_
      simp [Table.endHolders, hzero, Multiset.count_singleton]
    refine hread.of_change (.inl wf) (fun x hx => ?_) fun e => ?_
    · cases x with
      | inl g =>
        have hg : g ≠ wf := by simpa using hx
        by_cases hgr : g = rf
        · subst hgr
          simpa [Table.endHolders] using hrends
        · simp [Table.endHolders, hfile g hgr hg, hgr]
      | inr q =>
        by_cases hq : q = p
        · subst hq
          simp [Table.endHolders, hl]
        · simp [Table.endHolders, hq]
    · obtain ⟨qi, x⟩ := e
      have hother : wf ≠ rf := Ne.symm hne
      simp only [Table.endHolders, Sum.elim_inl, hwends, hopen, Multiset.count_singleton, ne_eq,
        Sum.inl.injEq, hother, not_false_eq_true, Function.update_of_ne, hzero, or_true,
        Multiset.count_zero]
      by_cases hqi : qi = pi
      · subst hqi
        cases x <;> simp [hclosed]
      · simp [hqi]
  · intro qi e he
    by_cases hqi : qi = pi
    · subst hqi
      simp only [Table.newPipe, Table.setFile_pipe, Table.setPipe_pipe, if_pos,
        Option.some.injEq] at he
      simp [← he]
    · simp only [Table.newPipe, Table.setFile_pipe, Table.setPipe_pipe, hqi, if_false] at he
      exact h.pipes qi e he

end

end LiberalOS.Kernel.Files
