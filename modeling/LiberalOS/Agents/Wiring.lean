import Mathlib.Tactic.FinCases
import LiberalOS.Kernel.Programs

/-!
# The pipeline of triage

What `user/triage.c` does with descriptors: it makes four pipes, and each of the five stages gets
the read end of one as its input and the write end of the next as its output. `exec` keeps
descriptors, and a stage opens the console and exits. Calls may fail and processes may be killed at
every point, and other processes do what they want at the same time.

## Main results

* `triage_ends` — once the pipeline is set up, a pipe is open at the one end as long as the stage
  before it is there and at the other as long as the stage behind it is, so that every stage sees
  the end of its input when the stage before it is gone.
-/
namespace LiberalOS.Agents.Wiring
open Foundation Kernel Kernel.Files

/-! ## The program -/

/-- A stage after `exec`, the parent in its calls of `wait`, and a process that gives up. -/
inductive Role where
  | stage (i : Nat)
  | waits
  | dead
  deriving DecidableEq

def die : Prog Role := .role .dead

/-- A loop over a list of descriptors. -/
def closeAll : List Int → Prog Role → Prog Role
  | [], k => k
  | fd :: fds, k => .call (.close fd) fun _ => closeAll fds k

/-- What a child does for its input and its output. -/
def redirect (fd std : Int) (k : Prog Role) : Prog Role :=
  if fd ≠ std then
    .call (.close std) fun _ => .call (.dup fd) fun r => if r ≠ [std] then die else k
  else k

/-- `spawn_stage`; the stages are numbered. -/
def spawnStage (i : Nat) (inFd outFd : Int) (closeFds : List Int) (k : Prog Role) : Prog Role :=
  .call .fork fun r =>
    if r.headD 0 < 0 then die
    else if r = [0] then
      redirect inFd 0 (redirect outFd 1 (closeAll closeFds (.role (.stage i))))
    else k

/-- `pipe`, with the two numbers it stores. -/
def makePipe (k : Int → Int → Prog Role) : Prog Role :=
  .call .pipe fun r =>
    match r with
    | [_, fd0, fd1] => k fd0 fd1
    | _ => die

def pipeline (inFd : Int) : Prog Role :=
  makePipe fun r1 w1 => makePipe fun r2 w2 => makePipe fun r3 w3 => makePipe fun r4 w4 =>
    let closeP := [r1, w1, r2, w2, r3, w3, r4, w4]
    spawnStage 0 inFd w1 closeP <|
    spawnStage 1 r1 w2 closeP <|
    spawnStage 2 r2 w3 closeP <|
    spawnStage 3 r3 w4 closeP <|
    spawnStage 4 r4 1 closeP <|
    closeAll closeP <|
    if inFd ≠ 0 then .call (.close inFd) fun _ => .role .waits else .role .waits

/-- `main`, with a file as its argument or without. -/
def triage (file : Bool) : Prog Role :=
  if file then
    .call .open fun r => if r.headD 0 < 0 then die else pipeline (r.headD 0)
  else pipeline 0

/-! ## What it is for -/

/-- Of the pipes, a stage has the end it reads from and the end it writes to, and no other. -/
def OnlyOwn (made : List Nat) (i : Nat) (v : View) : Prop :=
  ∀ fd writable j pi, made[j]? = some pi → v fd = some (some (pi, writable)) →
    writable = true ∧ fd.val = 1 ∧ i = j ∨ writable = false ∧ fd.val = 0 ∧ i = j + 1

/-- The stage has both. -/
def HasOwn (made : List Nat) (i : Nat) (v : View) : Prop :=
  ∀ fd j pi, made[j]? = some pi → (i = j → fd.val = 1 → v fd = some (some (pi, true))) ∧
    (i = j + 1 → fd.val = 0 → v fd = some (some (pi, false)))

def Wired (made : List Nat) : Role → View → Prop
  | .stage i, v => made.length = 4 ∧ OnlyOwn made i v ∧ HasOwn made i v
  | .waits, v => ∀ pi ∈ made, ¬v.Has pi
  | .dead, _ => True

/-- What is left of it while the process exits. -/
def Leaving (made : List Nat) : Role → View → Prop
  | .stage i, v => OnlyOwn made i v
  | .waits, v => ∀ pi ∈ made, ¬v.Has pi
  | .dead, _ => True

theorem stable : Stable Wired Leaving where
  opens made r v fd h hfd := by
    have hfree : v fd = none := by simpa using List.find?_some hfd
    cases r with
    | stage i =>
      obtain ⟨hlen, honly, hhas⟩ := h
      refine ⟨hlen, fun fd' writable j pi hj hv => ?_, fun fd' j pi hj =>
        ⟨fun hi hfd' => ?_, fun hi hfd' => ?_⟩⟩
      · by_cases hne : fd' = fd
        · simp [View.set, hne] at hv
        · exact honly fd' writable j pi hj (by simpa [View.set, hne] using hv)
      · have hout := (hhas fd' j pi hj).1 hi hfd'
        have hne : fd' ≠ fd := fun hne => by simp [hne, hfree] at hout
        simpa [View.set, hne] using hout
      · have hin := (hhas fd' j pi hj).2 hi hfd'
        have hne : fd' ≠ fd := fun hne => by simp [hne, hfree] at hin
        simpa [View.set, hne] using hin
    | waits => exact fun pi hpi hhas => h pi hpi ((View.has_set hhas).resolve_right (by simp))
    | dead => trivial
  weakens made r v h := by
    cases r with
    | stage i => exact h.2.1
    | waits => exact h
    | dead => trivial
  closes made r v v' h hv := by
    have hold : ∀ fd x, v' fd = some x → v fd = some x := fun fd x hx => by
      obtain hsame | hnone := hv fd
      · rw [← hsame, hx]
      · simp [hnone] at hx
    cases r with
    | stage i => exact fun fd writable j pi hj hfd => h fd writable j pi hj (hold _ _ hfd)
    | waits =>
      rintro pi hpi ⟨fd, writable, hfd⟩
      exact h pi hpi ⟨fd, writable, hold _ _ hfd⟩
    | dead => trivial

/-! ## The program is safe -/

section
variable {k : Prog Role} {made : List Nat} {v : View} {i j : Fin nofile} {fd std : Int} {x : Kind}

/-- The condition on the parts of the program. -/
abbrev Ok (k : Prog Role) (made : List Nat) (v : View) : Prop := k.Safe 4 Wired made v

theorem ok_close {k : List Int → Prog Role} (hget : v.get fd = some (i, x))
    (h : Ok (k [0]) made (v.set i none)) : Ok (.call (.close fd) k) made v := by
  simpa only [Ok, Prog.Safe, hget] using h

theorem ok_dup {k : List Int → Prog Role} (hget : v.get fd = some (j, x)) (hfree : v.free = some i)
    (h : Ok (k [(i.val : Int)]) made (v.set i (some x))) : Ok (.call (.dup fd) k) made v := by
  simpa only [Ok, Prog.Safe, hget, hfree] using h

theorem ok_closeAll_cons {fds : List Int} (hget : v.get fd = some (i, x))
    (h : Ok (closeAll fds k) made (v.set i none)) : Ok (closeAll (fd :: fds) k) made v :=
  ok_close hget h

/-- A standard descriptor is replaced. -/
theorem ok_redirect {y : Kind} (hne : fd ≠ std) (hstd : v.get std = some (i, y))
    (hdup : (v.set i none).get fd = some (j, x)) (hfree : (v.set i none).free = some i)
    (hi : (i.val : Int) = std) (h : Ok k made ((v.set i none).set i (some x))) :
    Ok (redirect fd std k) made v := by
  rw [redirect, if_pos hne]
  refine ok_close hstd (ok_dup hdup hfree ?_)
  rwa [hi, if_neg (by simp)]

theorem ok_spawnStage {n : Nat} {inFd outFd : Int} {fds : List Int} (hlen : made.length = 4)
    (hchild : Ok (redirect inFd 0 (redirect outFd 1 (closeAll fds (.role (.stage n))))) made v)
    (hrest : Ok k made v) : Ok (spawnStage n inFd outFd fds k) made v := by
  refine ⟨hlen, trivial, hchild, fun pid hpid => ?_⟩
  have hnot : ¬(pid : Int) < 0 := by omega
  have hzero : pid ≠ 0 := by omega
  simpa [hnot, hzero] using hrest

theorem ok_redirect_self (h : Ok k made v) : Ok (redirect std std k) made v := by
  rwa [redirect, if_neg (by simp)]

/-- A pipe is new. -/
theorem ok_makePipe {k : Int → Int → Prog Role} {a b : Fin nofile} (hlen : made.length < 4)
    (ha : v.free = some a) (hb : ∀ y, (v.set a (some y)).free = some b)
    (h : ∀ pi, ¬v.Has pi → Ok (k a.val b.val) (made ++ [pi])
      ((v.set a (some (some (pi, false)))).set b (some (some (pi, true))))) :
    Ok (makePipe k) made v := by
  refine ⟨hlen, trivial, fun pi a' b' hnew ha' hb' => ?_⟩
  obtain rfl : a = a' := Option.some.inj (ha.symm.trans ha')
  obtain rfl : b = b' := Option.some.inj ((hb _).symm.trans hb')
  exact h pi hnew

/-- What is not in a table with a pipe is not the pipe, nor is it in the table before. -/
theorem of_not_has {a b : Fin nofile} {pi qi : Nat} (ha : v a = none) (hb : v b = none)
    (hne : a ≠ b)
    (h : ¬((v.set a (some (some (qi, false)))).set b (some (some (qi, true)))).Has pi) :
    pi ≠ qi ∧ ¬v.Has pi := by
  refine ⟨?_, fun ⟨fd, writable, hfd⟩ => h ⟨fd, writable, ?_⟩⟩
  · rintro rfl
    exact h ⟨a, false, by simp [View.set, hne]⟩
  · have hfa : fd ≠ a := fun hfa => by simp [hfa, ha] at hfd
    have hfb : fd ≠ b := fun hfb => by simp [hfb, hb] at hfd
    simpa [View.set, hfa, hfb] using hfd

end

/-- A table with three descriptors, and maybe a fourth. -/
def tableOf (x0 x1 x2 : Kind) (y : Option Kind) : View :=
  fun fd => [some x0, some x1, some x2, y].getD fd none

theorem tableOf_eq_some {x0 x1 x2 z : Kind} {y : Option Kind} {fd : Fin nofile}
    (hy : y = none ∨ y = some none) (h : tableOf x0 x1 x2 y fd = some z) :
    fd = 0 ∧ z = x0 ∨ fd = 1 ∧ z = x1 ∨ z = x2 ∨ z = none := by
  obtain ⟨m, hm⟩ := fd
  match m with
  | 0 => exact Or.inl ⟨rfl, (Option.some.inj h).symm⟩
  | 1 => exact Or.inr (Or.inl ⟨rfl, (Option.some.inj h).symm⟩)
  | 2 => exact Or.inr (Or.inr (Or.inl (Option.some.inj h).symm))
  | 3 =>
    obtain rfl | rfl := hy
    · cases h
    · exact Or.inr (Or.inr (Or.inr (Option.some.inj h).symm))
  | m + 4 => simp [tableOf] at h

/-- What a stage reads from, and what it writes to; the first and the last are connected to what
the parent was. -/
def inEnd (made : List Nat) (n : Nat) (x0 : Kind) : Kind :=
  if n = 0 then x0 else made[n - 1]?.map fun pi => (pi, false)

def outEnd (made : List Nat) (n : Nat) (x1 : Kind) : Kind :=
  if n = 4 then x1 else made[n]?.map fun pi => (pi, true)

/-- The pipes are different from each other, and the parent did not have them before. -/
structure New (made : List Nat) (x0 x1 x2 : Kind) : Prop where
  length : made.length = 4
  nodup : made.Nodup
  notMem : ∀ pi ∈ made, ∀ writable,
    x0 ≠ some (pi, writable) ∧ x1 ≠ some (pi, writable) ∧ x2 ≠ some (pi, writable)

theorem New.file {made : List Nat} {x0 x1 x2 : Kind} (h : New made x0 x1 x2) :
    New made none x1 x2 :=
  ⟨h.length, h.nodup, fun pi hpi writable => ⟨by simp, (h.notMem pi hpi writable).2⟩⟩

section
variable {made : List Nat} {v : View} {n : Nat} {x0 x1 x2 : Kind} {y : Option Kind}

theorem ok_waits (h : New made x0 x1 x2) (hy : y = none ∨ y = some none)
    (hv : v = tableOf x0 x1 x2 y) : Ok (.role .waits) made v := by
  subst hv
  rintro pi hpi ⟨fd, writable, hfd⟩
  obtain ⟨h0, h1, h2⟩ := h.notMem pi hpi writable
  obtain ⟨-, hz⟩ | ⟨-, hz⟩ | hz | hz := tableOf_eq_some hy hfd
  · exact h0 hz.symm
  · exact h1 hz.symm
  · exact h2 hz.symm
  · cases hz

theorem ok_stage (h : New made x0 x1 x2) (hy : y = none ∨ y = some none)
    (hv : v = tableOf (inEnd made n x0) (outEnd made n x1) x2 y) :
    Ok (.role (.stage n)) made v := by
  subst hv
  refine ⟨h.length, fun fd writable j pi hj hfd => ?_, fun fd j pi hj =>
    ⟨fun hi hfd => ?_, fun hi hfd => ?_⟩⟩
  · obtain ⟨h0, h1, h2⟩ := h.notMem pi (List.mem_of_getElem? hj) writable
    have hat : ∀ m, made[m]? = some pi → m = j := fun m hm => by
      obtain ⟨hlt, -⟩ := List.getElem?_eq_some_iff.mp hj
      exact ((List.getElem?_inj hlt h.nodup).mp (hj.trans hm.symm)).symm
    obtain ⟨rfl, hz⟩ | ⟨rfl, hz⟩ | hz | hz := tableOf_eq_some hy hfd
    · unfold inEnd at hz
      split at hz
      · exact absurd hz.symm h0
      · next hne =>
        obtain ⟨a, ha, hpair⟩ := Option.map_eq_some_iff.mp hz.symm
        obtain ⟨rfl, rfl⟩ := Prod.mk.inj hpair
        have := hat _ ha
        exact Or.inr ⟨rfl, rfl, by omega⟩
    · unfold outEnd at hz
      split at hz
      · exact absurd hz.symm h1
      · obtain ⟨a, ha, hpair⟩ := Option.map_eq_some_iff.mp hz.symm
        obtain ⟨rfl, rfl⟩ := Prod.mk.inj hpair
        exact Or.inl ⟨rfl, rfl, hat _ ha⟩
    · exact absurd hz.symm h2
    · cases hz
  · subst hi
    have hne : n ≠ 4 := by
      rintro rfl
      obtain ⟨hlt, -⟩ := List.getElem?_eq_some_iff.mp hj
      simp [h.length] at hlt
    simp [tableOf, hfd, outEnd, hne, hj]
  · subst hi
    simp [tableOf, hfd, inEnd, hj]

end

theorem New.of_not_has {made : List Nat} {x0 x1 x2 : Kind} {y : Option Kind}
    (hlen : made.length = 4) (hnodup : made.Nodup)
    (h : ∀ pi ∈ made, ¬(tableOf x0 x1 x2 y).Has pi) : New made x0 x1 x2 :=
  ⟨hlen, hnodup, fun pi hpi writable => ⟨fun hx => h pi hpi ⟨0, writable, congrArg some hx⟩,
    fun hx => h pi hpi ⟨1, writable, congrArg some hx⟩,
    fun hx => h pi hpi ⟨2, writable, congrArg some hx⟩⟩⟩

/-- The tables are computed: all numbers are known when the first three are taken. -/
theorem ok_pipeline (file : Bool) {x0 x1 x2 : Kind} {y : Option Kind}
    (hy : y = if file then some none else none) :
    Ok (pipeline (if file then 3 else 0)) [] (tableOf x0 x1 x2 y) := by
  have hnone : y = none ∨ y = some none := by cases file <;> simp [hy]
  cases file <;> obtain rfl := hy
  all_goals
    refine ok_makePipe (by simp) rfl (fun _ => rfl) fun p1 hp1 => ?_
    refine ok_makePipe (by simp) rfl (fun _ => rfl) fun p2 hp2 => ?_
    refine ok_makePipe (by simp) rfl (fun _ => rfl) fun p3 hp3 => ?_
    refine ok_makePipe (by simp) rfl (fun _ => rfl) fun p4 hp4 => ?_
    have hnew : New [p1, p2, p3, p4] x0 x1 x2 := by
      obtain ⟨h21, hp2⟩ := of_not_has rfl rfl (by decide) hp2
      obtain ⟨h32, hp3⟩ := of_not_has rfl rfl (by decide) hp3
      obtain ⟨h31, hp3⟩ := of_not_has rfl rfl (by decide) hp3
      obtain ⟨h43, hp4⟩ := of_not_has rfl rfl (by decide) hp4
      obtain ⟨h42, hp4⟩ := of_not_has rfl rfl (by decide) hp4
      obtain ⟨h41, hp4⟩ := of_not_has rfl rfl (by decide) hp4
      refine .of_not_has rfl ?_ (List.forall_mem_cons.mpr ⟨hp1, List.forall_mem_cons.mpr ⟨hp2,
        List.forall_mem_cons.mpr ⟨hp3, List.forall_mem_singleton.mpr hp4⟩⟩⟩)
      simp [h21.symm, h31.symm, h41.symm, h32.symm, h42.symm, h43.symm]
    refine ok_spawnStage rfl ?_ (ok_spawnStage rfl ?_ (ok_spawnStage rfl ?_ (ok_spawnStage rfl ?_
      (ok_spawnStage rfl ?_ ?_))))
    -- the stages between the first and the last
    iterate 3 on_goal 2 =>
      refine ok_redirect (by decide) rfl rfl rfl rfl (ok_redirect (by decide) rfl rfl rfl rfl ?_)
      iterate 8 refine ok_closeAll_cons rfl ?_
      exact ok_stage hnew hnone (funext fun fd => by fin_cases fd <;> rfl)
    on_goal 2 =>
      refine ok_redirect (by decide) rfl rfl rfl rfl (ok_redirect_self ?_)
      iterate 8 refine ok_closeAll_cons rfl ?_
      exact ok_stage hnew hnone (funext fun fd => by fin_cases fd <;> rfl)
  -- without a file the parser has the input of the parent, and nothing else is to be closed
  · refine ok_redirect_self (ok_redirect (by decide) rfl rfl rfl rfl ?_)
    iterate 8 refine ok_closeAll_cons rfl ?_
    exact ok_stage hnew hnone (funext fun fd => by fin_cases fd <;> rfl)
  · iterate 8 refine ok_closeAll_cons rfl ?_
    exact ok_waits hnew hnone (funext fun fd => by fin_cases fd <;> rfl)
  · refine ok_redirect (by decide) rfl rfl rfl rfl (ok_redirect (by decide) rfl rfl rfl rfl ?_)
    iterate 8 refine ok_closeAll_cons rfl ?_
    exact ok_stage hnew.file hnone (funext fun fd => by fin_cases fd <;> rfl)
  · iterate 8 refine ok_closeAll_cons rfl ?_
    refine ok_close rfl ?_
    exact ok_waits hnew (Or.inl rfl) (funext fun fd => by fin_cases fd <;> rfl)

theorem ok_triage (file : Bool) (x0 x1 x2 : Kind) :
    Ok (triage file) [] (tableOf x0 x1 x2 none) := by
  cases file with
  | false => exact ok_pipeline false rfl
  | true =>
    have hfree : (tableOf x0 x1 x2 none).free = some 3 := rfl
    have hview : (tableOf x0 x1 x2 none).set 3 (some none) = tableOf x0 x1 x2 (some none) :=
      funext fun fd => by fin_cases fd <;> rfl
    refine ⟨trivial, fun fd hfd => ?_⟩
    obtain rfl := Option.some.inj (hfree.symm.trans hfd)
    rw [hview]
    exact ok_pipeline true rfl

/-! ## The pipeline at work -/

/-- A process runs `triage`, and nothing is known of the others. -/
def launch (files : State) (p : Fin nproc) (file : Bool) : Sys Role :=
  ⟨files, Function.update (fun _ => .other) p (triage file), []⟩

def roleOf : Prog Role → Option Role
  | .role r => some r
  | _ => none

/-- No file is being closed, and every process of the pipeline has come to its role or is gone. -/
def Settled (s : Sys Role) : Prop := ∀ p, (s.files.proc p).closing = [] ∧
  ((s.prog p).isOther = true ∨ (s.files.proc p).life = .unused ∨ (s.files.proc p).life = .zombie ∨
    (s.files.proc p).life = .alive ∧ (s.files.proc p).task = .none ∧
      ∃ r ∈ roleOf (s.prog p), r ≠ .dead)

instance (s : Sys Role) : Decidable (Settled s) :=
  inferInstanceAs (Decidable (∀ _ : Fin nproc, _ ∧ (_ ∨ _ ∨ _ ∨ _ ∧ _ ∧ ∃ _ ∈ roleOf _, _)))

/-- The process of this stage is there. -/
def HasStage (s : Sys Role) (i : Nat) : Prop :=
  ∃ p, (s.files.proc p).life = .alive ∧ s.prog p = .role (.stage i)

section
variable {s : Sys Role} {files : State} {p q : Fin nproc} {i j pi : Nat}

theorem eq_role {k : Prog Role} {r : Role} (h : r ∈ roleOf k) : k = .role r := by
  cases k with
  | role r' => rw [Option.some.inj h]
  | _ => cases h

/-- A process with three descriptors. -/
theorem view_of_three (h : ∀ fd, ((files.proc p).ofile fd).isSome = true ↔ fd.val < 3) :
    ∃ x0 x1 x2, files.view p = tableOf x0 x1 x2 none := by
  have hview : ∀ fd, (files.view p fd).isSome = true ↔ fd.val < 3 := by
    simpa [State.view] using h
  obtain ⟨x0, hx0⟩ := Option.isSome_iff_exists.mp ((hview 0).mpr (by decide))
  obtain ⟨x1, hx1⟩ := Option.isSome_iff_exists.mp ((hview 1).mpr (by decide))
  obtain ⟨x2, hx2⟩ := Option.isSome_iff_exists.mp ((hview 2).mpr (by decide))
  refine ⟨x0, x1, x2, funext fun fd => ?_⟩
  by_cases hfd : fd.val < 3
  · obtain rfl | rfl | rfl : fd = 0 ∨ fd = 1 ∨ fd = 2 := by
      simp only [Fin.ext_iff]
      change fd.val = 0 ∨ fd.val = 1 ∨ fd.val = 2
      omega
    · exact hx0
    · exact hx1
    · exact hx2
  · have hnone : files.view p fd = none := by simpa [hfd] using hview fd
    obtain ⟨m, hm⟩ := Nat.exists_eq_add_of_le (Nat.le_of_not_lt hfd)
    rw [hnone, tableOf, hm, Nat.add_comm]
    cases m with
    | zero => rfl
    | succ m => simp

theorem inv_of_launch {ks : List Label} {ls : List SysLabel} {file : Bool}
    (hks : exec step boot ks = some files) (hp : (files.proc p).life = .alive)
    (hidle : (files.proc p).idle)
    (hfds : ∀ fd, ((files.proc p).ofile fd).isSome = true ↔ fd.val < 3)
    (hs : exec sysStep (launch files p file) ls = some s) : s.Inv 4 Wired Leaving := by
  obtain ⟨x0, x1, x2, hview⟩ := view_of_three hfds
  have hstart : (launch files p file).Inv 4 Wired Leaving :=
    .start (inv_of_exec hks) hp hidle (by rw [hview]; exact ok_triage file x0 x1 x2)
  exact hstart.exec stable hs

/-- A process of the pipeline that is there has its role. -/
theorem Settled.wired (hset : Settled s) (h : s.Inv 4 Wired Leaving)
    (hp : (s.files.proc p).life = .alive) (hgroup : (s.prog p).isOther = false) :
    ∃ r, s.prog p = .role r ∧ r ≠ .dead ∧ Wired s.made r (s.files.view p) := by
  have hlocal := h.safe p hp
  obtain ⟨-, hother | hgone | hgone | ⟨-, htask, hrole⟩⟩ := hset p
  · simp [hother] at hgroup
  · simp [hp] at hgone
  · simp [hp] at hgone
  · obtain ⟨r, hr, hdead⟩ := hrole
    have hprog := eq_role hr
    simp only [Local, hprog, htask] at hlocal
    exact ⟨r, hprog, hdead, hlocal⟩

/-- As long as the pipeline has the pipe, its ends are open for the stages that it is between. -/
theorem Settled.isOpen_iff_hasStage (hset : Settled s) (h : s.Inv 4 Wired Leaving)
    (hj : s.made[j]? = some pi) (hq : (s.prog q).isOther = false) (hhas : (s.files.view q).Has pi)
    (writable : Bool) : s.files.table.isOpen (pi, writable) = true ↔
      HasStage s (if writable then j else j + 1) := by
  have hpi := List.mem_of_getElem? hj
  rw [h.files.isOpen_iff_view fun p => (hset p).1]
  constructor
  · rintro ⟨p, fd, hfd⟩
    have hgroup : (s.prog p).isOther = false := by
      by_contra hother
      exact h.apart p q (by simpa using hother) hq pi hpi ⟨⟨fd, writable, hfd⟩, hhas⟩
    have hgone (hgone : (s.files.proc p).life = .unused ∨ (s.files.proc p).life = .zombie) :
        (s.files.proc p).life = .alive := by
      simp [State.view, h.files.empty p hgone fd] at hfd
    have hlive : (s.files.proc p).life = .alive := by
      obtain ⟨-, hother | hunused | hzombie | ⟨hlive, -⟩⟩ := hset p
      · simp [hgroup] at hother
      · exact hgone (Or.inl hunused)
      · exact hgone (Or.inr hzombie)
      · exact hlive
    obtain ⟨r, hrole, hdead, hwired⟩ := hset.wired h hlive hgroup
    cases r with
    | stage i =>
      obtain ⟨-, honly, -⟩ := hwired
      obtain ⟨rfl, -, rfl⟩ | ⟨rfl, -, rfl⟩ := honly fd writable j pi hj hfd
      · exact ⟨p, hlive, hrole⟩
      · exact ⟨p, hlive, hrole⟩
    | waits => exact absurd ⟨fd, writable, hfd⟩ (hwired pi hpi)
    | dead => exact absurd rfl hdead
  · rintro ⟨p, hlive, hrole⟩
    obtain ⟨r, hrole', -, hwired⟩ := hset.wired h hlive (by simp [hrole, Prog.isOther])
    obtain rfl : Role.stage _ = r := by simpa [hrole] using hrole'
    cases writable with
    | false => exact ⟨p, 0, (hwired.2.2 0 j pi hj).2 rfl rfl⟩
    | true => exact ⟨p, 1, (hwired.2.2 1 j pi hj).1 rfl rfl⟩

/-- Once the pipeline is set up, every stage reads from the pipe before it and writes to the pipe
behind it. The pipe before it is open for writing as long as the stage before it is there, so that
the stage sees the end of its input after that; and the pipe behind it is open for reading as long
as the stage behind it is there. -/
theorem triage_ends {ks : List Label} {ls : List SysLabel} {file : Bool}
    (hks : exec step boot ks = some files) (hp : (files.proc p).life = .alive)
    (hidle : (files.proc p).idle)
    (hfds : ∀ fd, ((files.proc p).ofile fd).isSome = true ↔ fd.val < 3)
    (hs : exec sysStep (launch files p file) ls = some s) (hset : Settled s)
    (hq : (s.files.proc q).life = .alive) (hrole : s.prog q = .role (.stage i)) :
    s.made.length = 4 ∧ ∀ j pi, s.made[j]? = some pi →
      (i = j + 1 → s.files.view q 0 = some (some (pi, false)) ∧
        (s.files.table.isOpen (pi, true) = true ↔ HasStage s j)) ∧
      (i = j → s.files.view q 1 = some (some (pi, true)) ∧
        (s.files.table.isOpen (pi, false) = true ↔ HasStage s (j + 1))) := by
  have h := inv_of_launch hks hp hidle hfds hs
  have hgroup : (s.prog q).isOther = false := by simp [hrole, Prog.isOther]
  obtain ⟨r, hrole', -, hwired⟩ := hset.wired h hq hgroup
  obtain rfl : Role.stage i = r := by simpa [hrole] using hrole'
  obtain ⟨hlen, -, hown⟩ := hwired
  refine ⟨hlen, fun j pi hj => ⟨fun hi => ?_, fun hi => ?_⟩⟩
  · have hin := (hown 0 j pi hj).2 hi rfl
    exact ⟨hin, hset.isOpen_iff_hasStage h hj hgroup ⟨0, false, hin⟩ true⟩
  · have hout := (hown 1 j pi hj).1 hi rfl
    exact ⟨hout, hset.isOpen_iff_hasStage h hj hgroup ⟨1, true, hout⟩ false⟩

/-- A shell with the console starts the pipeline. -/
def shellRun : List Label :=
  [.call 0 (.open true 1 2), .call 0 (.dup 0), .call 0 (.dup 0), .call 0 (.fork 1 2)] ++
    List.replicate 17 (.work 0 none true)

/-- A call that is done at once. -/
def callRun (p : Fin nproc) (c : Call) : List SysLabel := [.kernel (.call p c), .resume p]

def pipeRun (p : Fin nproc) (page : Nat) : List SysLabel :=
  [.kernel (.call p .pipe), .kernel (.work p none true), .kernel (.work p (some page) true),
    .resume p]

def forkRun (p np : Fin nproc) (pid : Nat) : List SysLabel :=
  .kernel (.call p (.fork np pid)) :: List.replicate 17 (.kernel (.work p none true)) ++
    [.resume p, .resume np]

/-- The parent is killed before the second `fork`, so that there is the first stage only. -/
def firstStageRun : List SysLabel :=
  [10, 11, 12, 13].flatMap (pipeRun 1) ++ forkRun 1 2 3 ++ callRun 2 (.close 1) ++
    callRun 2 (.dup 4) ++ [3, 4, 5, 6, 7, 8, 9, 10].flatMap (fun fd => callRun 2 (.close fd)) ++
    .kernel (.call 1 .exit) :: List.replicate 24 (.kernel (.work 1 none true))

theorem triage_ends_firstStageRun : ∃ files s, exec step boot shellRun = some files ∧
    exec sysStep (launch files 1 false) firstStageRun = some s ∧
    s.files.view 2 1 = some (some (10, true)) ∧
    (s.files.table.isOpen (10, false) = true ↔ HasStage s 1) := by
  have hend : (exec step boot shellRun).bind (fun files =>
      (exec sysStep (launch files 1 false) firstStageRun).map fun s => decide
        (((files.proc 1).life = .alive ∧ (files.proc 1).idle ∧
          ∀ fd, ((files.proc 1).ofile fd).isSome = true ↔ fd.val < 3) ∧ Settled s ∧
        (s.files.proc 2).life = .alive ∧ .stage 0 ∈ roleOf (s.prog 2) ∧ s.made[0]? = some 10)) =
      some true := by
    decide +kernel
  obtain ⟨files, hks, hend⟩ := Option.bind_eq_some_iff.mp hend
  obtain ⟨s, hs, hend⟩ := Option.map_eq_some_iff.mp hend
  obtain ⟨⟨hp, hidle, hfds⟩, hset, hq, hrole, hmade⟩ := of_decide_eq_true hend
  have h := triage_ends hks hp hidle hfds hs hset hq (eq_role hrole)
  exact ⟨files, s, hks, hs, (h.2 0 10 hmade).2 rfl⟩

end

end LiberalOS.Agents.Wiring
