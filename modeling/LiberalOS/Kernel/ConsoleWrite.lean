import LiberalOS.Foundation.Execution
import LiberalOS.Kernel.PartialCopy

/-!
# Writing to the console

`consolewrite` and `uartwrite` of `kernel/console.c` and `kernel/uart.c` under any number of
processes, as interleaved steps. One step is what happens between two points where the process may
lose the processor for long: a pass through the loop of `acquiresleep`, a copy into the staging
buffer, a pass through the loop of `uartwrite`, `releasesleep`. A process that sleeps is in front of
the pass it repeats when it is woken, and may be woken at any time.

Two things are recorded that no step reads: the memory of the caller at the call, and the calls that
have returned, in the order in which they gave up the lock.

## Main results

* `consolewrite_atomic` — in every run, the output is one block for each call.
-/
namespace LiberalOS.Kernel
open Foundation

/-! ## Calls -/

/-- The arguments of a call, and the memory of the caller. -/
structure WriteCall where
  userSrc : Bool
  src : Nat
  n : Int
  mem : AddressSpace

/-- The byte at an offset from `src`. A page that is not there yet would be read as zero. -/
def WriteCall.byte (kmem : Nat → UInt8) (c : WriteCall) (k : Nat) : UInt8 :=
  if c.userSrc then (byteAt c.mem (c.src + k)).getD 0 else kmem (c.src + k)

/-- The first `r` bytes of the source. -/
def WriteCall.source (kmem : Nat → UInt8) (c : WriteCall) (r : Nat) : List UInt8 :=
  (List.range r).map (c.byte kmem)

/-- A call that has returned. -/
structure Written where
  pid : Nat
  call : WriteCall
  ret : Nat

/-! ## States -/

/-- Where a process is: in user space, or in front of a step of its call. `i` is the number of bytes
written in earlier rounds, `buf` the part of the staging buffer in use and `j` its next byte. -/
inductive WritePc where
  | user
  | acquiresleep (c : WriteCall)
  | copyin (c : WriteCall) (i : Nat)
  | uartwrite (c : WriteCall) (i : Nat) (buf : List UInt8) (j : Nat)
  | releasesleep (c : WriteCall) (i : Nat)

/-- `lock` is the process that holds `cons_write_lock`, `out` what `uartwrite` has put into the
transmit register. -/
structure WriteSys where
  mem : Nat → AddressSpace
  pc : Nat → WritePc
  lock : Option Nat
  txBusy : Bool
  out : List UInt8
  returned : List Written

/-- All processes are in user space. -/
def WriteSys.init (mem : Nat → AddressSpace) (txBusy : Bool) : WriteSys :=
  ⟨mem, fun _ => .user, none, txBusy, [], []⟩

def WriteSys.goto (s : WriteSys) (p : Nat) (pc : WritePc) : WriteSys :=
  { s with pc := Function.update s.pc p pc }

/-! ## Steps -/

/-- `either_copyin`, with what is in kernel memory. -/
def eitherCopyin (env : AllocEnv) (kmem : Nat → UInt8) (userSrc : Bool) (mem : AddressSpace)
    (src len : Nat) : Option (List UInt8) × AddressSpace :=
  if userSrc then copyin env mem src len
  else (some ((List.range len).map fun k => kmem (src + k)), mem)

/-- The head of the staging loop, and the copy. -/
def copyStep (env : AllocEnv) (kmem : Nat → UInt8) (s : WriteSys) (p : Nat) (c : WriteCall)
    (i : Nat) : WriteSys :=
  if (i : Int) < c.n then
    let nn : Int := if 1024 > c.n - i then c.n - i else 1024
    let r := eitherCopyin env kmem c.userSrc (s.mem p) (c.src + i) nn.toNat
    let s := { s with mem := Function.update s.mem p r.2 }
    match r.1 with
    | some buf => s.goto p (.uartwrite c i buf 0)
    | none => s.goto p (.releasesleep c i)
  else s.goto p (.releasesleep c i)

/-- A pass through the loop of `uartwrite`, or its return. -/
def uartwriteStep (s : WriteSys) (p : Nat) (c : WriteCall) (i : Nat) (buf : List UInt8) (j : Nat) :
    WriteSys :=
  match buf[j]? with
  | some b =>
    if s.txBusy then s
    else { s with out := s.out ++ [b], txBusy := true }.goto p (.uartwrite c i buf (j + 1))
  | none => s.goto p (.copyin c (i + buf.length))

/-- What can happen: a process in user space changes its memory or calls `consolewrite`, a process
in a call makes its next step, or the UART interrupts. -/
inductive WriteLabel where
  | store (p : Nat) (mem : AddressSpace)
  | call (p : Nat) (userSrc : Bool) (src : Nat) (n : Int)
  | run (p : Nat) (env : AllocEnv)
  | uartintr

def runStep (kmem : Nat → UInt8) (env : AllocEnv) (s : WriteSys) (p : Nat) : Option WriteSys :=
  match s.pc p with
  | .user => none
  | .acquiresleep c =>
    -- a process that finds the lock taken sleeps, and tests again
    if s.lock.isSome then some s else some ({ s with lock := some p }.goto p (.copyin c 0))
  | .copyin c i => some (copyStep env kmem s p c i)
  | .uartwrite c i buf j => some (uartwriteStep s p c i buf j)
  | .releasesleep c i =>
    some ({ s with lock := none, returned := s.returned ++ [Written.mk p c i] }.goto p .user)

def writeNext (kmem : Nat → UInt8) (s : WriteSys) : WriteLabel → Option WriteSys
  | .store p mem =>
    match s.pc p with
    | .user => some { s with mem := Function.update s.mem p mem }
    | _ => none
  | .call p userSrc src n =>
    match s.pc p with
    | .user => some (s.goto p (.acquiresleep { userSrc, src, n, mem := s.mem p }))
    | _ => none
  | .run p env => runStep kmem env s p
  | .uartintr => some { s with txBusy := false }

/-! ## Statement -/

/-- What has been put out for a call that holds the lock. -/
def WritePc.written (kmem : Nat → UInt8) : WritePc → List UInt8
  | .copyin c i => c.source kmem i
  | .uartwrite c i _ j => c.source kmem (i + j)
  | .releasesleep c i => c.source kmem i
  | _ => []

/-- The output of the calls that have returned. -/
def blocks (kmem : Nat → UInt8) (ws : List Written) : List UInt8 :=
  ws.flatMap fun w => w.call.source kmem w.ret

/-- The call a process is in. -/
def WritePc.call : WritePc → Option WriteCall
  | .user => none
  | .acquiresleep c => some c
  | .copyin c _ => some c
  | .uartwrite c _ _ _ => some c
  | .releasesleep c _ => some c

/-- The output is a block for each call that has returned, of as many bytes from its source as it
returned, and what the holder of the lock has put out so far, the first bytes of its source. -/
structure Atomic (kmem : Nat → UInt8) (s : WriteSys) : Prop where
  out : ∃ part, s.out = blocks kmem s.returned ++ part ∧ (s.lock = none → part = []) ∧
    ∀ p, s.lock = some p → ∃ c r, (s.pc p).call = some c ∧ part = c.source kmem r
  ret_le : ∀ w ∈ s.returned, (w.ret : Int) ≤ max w.call.n 0

/-! ## The invariant -/

def WritePc.holds : WritePc → Bool
  | .user => false
  | .acquiresleep _ => false
  | _ => true

/-- What is known of a process in a call: the bytes it has taken are those of its source. -/
def WritePc.Sound (kmem : Nat → UInt8) : WritePc → Prop
  | .copyin c i => (i : Int) ≤ max c.n 0
  | .uartwrite c i buf j => ((i + buf.length : Nat) : Int) ≤ max c.n 0 ∧ j ≤ buf.length ∧
      buf = (List.range buf.length).map fun k => c.byte kmem (i + k)
  | .releasesleep c i => (i : Int) ≤ max c.n 0
  | _ => True

structure WriteInv (kmem : Nat → UInt8) (s : WriteSys) : Prop where
  holder : ∀ p, (s.pc p).holds = true ↔ s.lock = some p
  out : s.out = blocks kmem s.returned ++
    (s.lock.map fun p => (s.pc p).written kmem).getD []
  sound : ∀ p, (s.pc p).Sound kmem
  memory : ∀ p c, (s.pc p).call = some c → ∀ a, SameByte (byteAt c.mem a) (byteAt (s.mem p) a)
  ret_le : ∀ w ∈ s.returned, (w.ret : Int) ≤ max w.call.n 0

theorem source_succ (kmem : Nat → UInt8) (c : WriteCall) (r : Nat) :
    c.source kmem (r + 1) = c.source kmem r ++ [c.byte kmem r] := by
  simp [WriteCall.source, List.range_succ]

theorem blocks_append (kmem : Nat → UInt8) (ws : List Written) (w : Written) :
    blocks kmem (ws ++ [w]) = blocks kmem ws ++ w.call.source kmem w.ret := by
  simp [blocks]

theorem writeInv_init (kmem : Nat → UInt8) (mem : Nat → AddressSpace) (txBusy : Bool) :
    WriteInv kmem (.init mem txBusy) where
  holder p := by simp [WriteSys.init, WritePc.holds]
  out := rfl
  sound _ := trivial
  memory _ _ h := by cases h
  ret_le _ h := by cases h

section

variable {kmem : Nat → UInt8} {s t : WriteSys} {p : Nat}

theorem WriteInv.not_holds (h : WriteInv kmem s) {q : Nat} (hq : s.lock = some q) (hne : q ≠ p) :
    (s.pc p).holds = false := by
  cases hp : (s.pc p).holds with
  | false => rfl
  | true => exact absurd (Option.some.inj (hq.symm.trans ((h.holder p).mp hp))) hne

/-- A process moves within its part of the call: it keeps the lock or keeps off it, and puts out
bytes only with the lock. -/
theorem WriteInv.move (h : WriteInv kmem s) {pc : WritePc} {mem : AddressSpace} {more : List UInt8}
    (hpc : t.pc = Function.update s.pc p pc) (hmem : t.mem = Function.update s.mem p mem)
    (hlock : t.lock = s.lock) (hreturned : t.returned = s.returned) (hout : t.out = s.out ++ more)
    (hholds : pc.holds = (s.pc p).holds)
    (hwritten : pc.written kmem = (s.pc p).written kmem ++ more)
    (hmore : (s.pc p).holds = false → more = []) (hsound : pc.Sound kmem)
    (hsame : ∀ c, pc.call = some c → ∀ a, SameByte (byteAt c.mem a) (byteAt mem a)) :
    WriteInv kmem t where
  holder q := by
    rw [hlock, ← h.holder q, hpc]
    by_cases hq : q = p
    · rw [hq, Function.update_self, hholds]
    · rw [Function.update_of_ne hq]
  out := by
    rw [hout, hlock, hreturned, hpc, h.out, List.append_assoc]
    congr 1
    cases hl : s.lock with
    | none =>
      have hfree : (s.pc p).holds = false := by
        cases hp : (s.pc p).holds with
        | false => rfl
        | true => exact absurd ((h.holder p).mp hp) (by simp [hl])
      exact hmore hfree
    | some q =>
      by_cases hq : q = p
      · simp [hq, hwritten]
      · simp [Function.update_of_ne hq, hmore (h.not_holds hl hq)]
  sound q := by
    rw [hpc]
    by_cases hq : q = p
    · rw [hq, Function.update_self]
      exact hsound
    · rw [Function.update_of_ne hq]
      exact h.sound q
  memory q c hc a := by
    rw [hpc] at hc
    rw [hmem]
    by_cases hq : q = p
    · rw [hq, Function.update_self] at hc ⊢
      exact hsame c hc a
    · rw [Function.update_of_ne hq] at hc ⊢
      exact h.memory q c hc a
  ret_le := hreturned ▸ h.ret_le

/-- A process moves without output. -/
theorem WriteInv.moveQuiet (h : WriteInv kmem s) {pc : WritePc} {mem : AddressSpace}
    (hpc : t.pc = Function.update s.pc p pc) (hmem : t.mem = Function.update s.mem p mem)
    (hlock : t.lock = s.lock) (hreturned : t.returned = s.returned) (hout : t.out = s.out)
    (hholds : pc.holds = (s.pc p).holds) (hwritten : pc.written kmem = (s.pc p).written kmem)
    (hsound : pc.Sound kmem)
    (hsame : ∀ c, pc.call = some c → ∀ a, SameByte (byteAt c.mem a) (byteAt mem a)) :
    WriteInv kmem t :=
  h.move hpc hmem hlock hreturned (hout.trans (List.append_nil _).symm) hholds
    (hwritten.trans (List.append_nil _).symm) (fun _ => rfl) hsound hsame

/-- The process takes the free lock. -/
theorem WriteInv.take (h : WriteInv kmem s) {c : WriteCall} (hp : s.pc p = .acquiresleep c)
    (hfree : s.lock = none) :
    WriteInv kmem ({ s with lock := some p }.goto p (.copyin c 0)) where
  holder q := by
    have hq := h.holder q
    rw [hfree] at hq
    by_cases hqp : q = p
    · simp [WriteSys.goto, hqp, WritePc.holds]
    · simp only [WriteSys.goto, Function.update_of_ne hqp, hq]
      simp [Ne.symm hqp]
  out := by
    have hout := h.out
    rw [hfree] at hout
    simpa [WriteSys.goto, WritePc.written, WriteCall.source] using hout
  sound q := by
    by_cases hq : q = p
    · simp [WriteSys.goto, hq, WritePc.Sound]
    · simpa [WriteSys.goto, Function.update_of_ne hq] using h.sound q
  memory q d hd a := by
    by_cases hq : q = p
    · subst hq
      refine h.memory q d ?_ a
      rw [hp]
      simpa [WriteSys.goto, WritePc.call] using hd
    · refine h.memory q d ?_ a
      simpa [WriteSys.goto, Function.update_of_ne hq] using hd
  ret_le := h.ret_le

/-- The process gives up the lock and returns. -/
theorem WriteInv.return (h : WriteInv kmem s) {c : WriteCall} {i : Nat}
    (hp : s.pc p = .releasesleep c i) :
    WriteInv kmem
      ({ s with lock := none, returned := s.returned ++ [Written.mk p c i] }.goto p .user) where
  holder q := by
    have hlock : s.lock = some p := (h.holder p).mp (by rw [hp]; rfl)
    by_cases hq : q = p
    · simp [WriteSys.goto, hq, WritePc.holds]
    · simp [WriteSys.goto, Function.update_of_ne hq, h.not_holds hlock (Ne.symm hq)]
  out := by
    have hlock : s.lock = some p := (h.holder p).mp (by rw [hp]; rfl)
    have hout := h.out
    rw [hlock, Option.map_some, hp] at hout
    simpa [WriteSys.goto, blocks_append, WritePc.written] using hout
  sound q := by
    by_cases hq : q = p
    · simp [WriteSys.goto, hq, WritePc.Sound]
    · simpa [WriteSys.goto, Function.update_of_ne hq] using h.sound q
  memory q d hd a := by
    by_cases hq : q = p
    · simp [WriteSys.goto, hq, WritePc.call] at hd
    · refine h.memory q d ?_ a
      simpa [WriteSys.goto, Function.update_of_ne hq] using hd
  ret_le w hw := by
    rcases List.mem_append.mp hw with hw | hw
    · exact h.ret_le w hw
    · obtain rfl := List.mem_singleton.mp hw
      have hsound := h.sound p
      rw [hp] at hsound
      exact hsound

/-- A chunk that is copied is the next part of the source. -/
theorem eitherCopyin_spec {env : AllocEnv} {c : WriteCall} {mem mem' : AddressSpace} {i len : Nat}
    {buf : List UInt8} (hsame : ∀ a, SameByte (byteAt c.mem a) (byteAt mem a))
    (h : eitherCopyin env kmem c.userSrc mem (c.src + i) len = (some buf, mem')) :
    buf = (List.range len).map fun k => c.byte kmem (i + k) := by
  cases huser : c.userSrc with
  | true =>
    rw [eitherCopyin, huser, if_pos rfl] at h
    rw [copyin_eq_of_same hsame h]
    simp [WriteCall.byte, huser, Nat.add_assoc]
  | false =>
    rw [eitherCopyin, huser] at h
    simp only [Bool.false_eq_true, if_false, Prod.mk.injEq, Option.some.injEq] at h
    rw [← h.1]
    simp [WriteCall.byte, huser, Nat.add_assoc]

theorem sameByte_eitherCopyin (env : AllocEnv) (userSrc : Bool) (mem : AddressSpace)
    (src len a : Nat) :
    SameByte (byteAt mem a) (byteAt (eitherCopyin env kmem userSrc mem src len).2 a) := by
  rw [eitherCopyin]
  split
  · exact sameByte_copyinLoop env len mem src len a
  · exact Or.inl rfl

theorem WriteInv.copyStep (h : WriteInv kmem s) (env : AllocEnv) {c : WriteCall} {i : Nat}
    (hp : s.pc p = .copyin c i) : WriteInv kmem (copyStep env kmem s p c i) := by
  have hsound : (i : Int) ≤ max c.n 0 := by simpa [hp, WritePc.Sound] using h.sound p
  have hmem := h.memory p c (by rw [hp]; rfl)
  have hholds : (s.pc p).holds = true := by rw [hp]; rfl
  have hwritten : (s.pc p).written kmem = c.source kmem i := by rw [hp]; rfl
  rw [Kernel.copyStep]
  split
  · next hlt =>
    dsimp only
    generalize hnn : (if 1024 > c.n - i then c.n - i else 1024 : Int) = nn
    have hle : 0 < nn ∧ (i : Int) + nn ≤ c.n := by
      split at hnn <;> omega
    have hafter a := (hmem a).trans
      (@sameByte_eitherCopyin kmem env c.userSrc (s.mem p) (c.src + i) nn.toNat a)
    cases hcopy : eitherCopyin env kmem c.userSrc (s.mem p) (c.src + i) nn.toNat with
    | mk got mem' =>
      rw [hcopy] at hafter
      cases got with
      | none =>
        refine h.moveQuiet rfl rfl rfl rfl rfl hholds.symm hwritten.symm hsound ?_
        rintro d ⟨⟩
        exact hafter
      | some buf =>
        have hbuf := eitherCopyin_spec hmem hcopy
        have hlen : buf.length = nn.toNat := by simp [hbuf]
        have hnext : WritePc.Sound kmem (.uartwrite c i buf 0) :=
          ⟨by omega, Nat.zero_le _, by rw [hlen]; exact hbuf⟩
        refine h.moveQuiet rfl rfl rfl rfl rfl hholds.symm hwritten.symm hnext ?_
        rintro d ⟨⟩
        exact hafter
  · refine h.moveQuiet rfl (Function.update_eq_self p s.mem).symm rfl rfl rfl hholds.symm
      hwritten.symm hsound ?_
    rintro d ⟨⟩
    exact hmem

theorem WriteInv.uartwriteStep (h : WriteInv kmem s) {c : WriteCall} {i j : Nat} {buf : List UInt8}
    (hp : s.pc p = .uartwrite c i buf j) : WriteInv kmem (uartwriteStep s p c i buf j) := by
  have hmem := h.memory p c (by rw [hp]; rfl)
  have hholds : (s.pc p).holds = true := by rw [hp]; rfl
  have hwritten : (s.pc p).written kmem = c.source kmem (i + j) := by rw [hp]; rfl
  obtain ⟨hle, hj, hbuf⟩ : WritePc.Sound kmem (.uartwrite c i buf j) := hp ▸ h.sound p
  rw [Kernel.uartwriteStep]
  cases hb : buf[j]? with
  | none =>
    have hend : j = buf.length := Nat.le_antisymm hj (List.getElem?_eq_none_iff.mp hb)
    refine h.moveQuiet rfl (Function.update_eq_self p s.mem).symm rfl rfl rfl hholds.symm
      (hend ▸ hwritten.symm) hle ?_
    rintro d ⟨⟩
    exact hmem
  | some b =>
    dsimp only
    split
    · exact h
    · have hlt : j < buf.length := (List.getElem?_eq_some_iff.mp hb).1
      have hbyte : b = c.byte kmem (i + j) := by
        rw [hbuf, List.getElem?_map, List.getElem?_range hlt] at hb
        exact (Option.some.inj hb).symm
      have hnext : (WritePc.uartwrite c i buf (j + 1)).written kmem =
          (s.pc p).written kmem ++ [b] := by
        rw [hwritten, hbyte]
        exact source_succ kmem c (i + j)
      refine h.move rfl (Function.update_eq_self p s.mem).symm rfl rfl rfl hholds.symm hnext
        (by rw [hholds]; nofun) ⟨hle, hlt, hbuf⟩ ?_
      rintro d ⟨⟩
      exact hmem

/-- Every step keeps the invariant. -/
theorem WriteInv.step (h : WriteInv kmem s) {l : WriteLabel} (hstep : writeNext kmem s l = some t) :
    WriteInv kmem t := by
  cases l with
  | store p mem =>
    rw [writeNext] at hstep
    split at hstep
    · next hp =>
      obtain rfl := Option.some.inj hstep
      refine h.moveQuiet (Function.update_eq_self p s.pc).symm rfl rfl rfl rfl rfl rfl
        (h.sound p) ?_
      rw [hp]
      nofun
    · cases hstep
  | call p userSrc src n =>
    rw [writeNext] at hstep
    split at hstep
    · next hp =>
      obtain rfl := Option.some.inj hstep
      refine h.moveQuiet rfl (Function.update_eq_self p s.mem).symm rfl rfl rfl (by rw [hp]; rfl)
        (by rw [hp]; rfl) trivial ?_
      rintro d ⟨⟩
      exact fun _ => Or.inl rfl
    · cases hstep
  | run p env =>
    rw [writeNext, runStep] at hstep
    split at hstep
    · cases hstep
    · next c hp =>
      split at hstep
      · exact Option.some.inj hstep ▸ h
      · next hfree =>
        exact Option.some.inj hstep ▸ h.take hp (by simpa using hfree)
    · next c i hp => exact Option.some.inj hstep ▸ h.copyStep env hp
    · next c i buf j hp => exact Option.some.inj hstep ▸ h.uartwriteStep hp
    · next c i hp => exact Option.some.inj hstep ▸ h.return hp
  | uartintr =>
    obtain rfl := Option.some.inj hstep
    exact ⟨h.holder, h.out, h.sound, h.memory, h.ret_le⟩

/-- The holder has put out the first bytes of its source. -/
theorem WriteInv.atomic (h : WriteInv kmem s) : Atomic kmem s := by
  refine ⟨⟨_, h.out, fun hfree => by rw [hfree]; rfl, fun p hp => ?_⟩, h.ret_le⟩
  have hholds := (h.holder p).mpr hp
  rw [hp, Option.map_some, Option.getD_some]
  cases hpc : s.pc p with
  | user => simp [hpc, WritePc.holds] at hholds
  | acquiresleep c => simp [hpc, WritePc.holds] at hholds
  | copyin c i => exact ⟨c, i, rfl, rfl⟩
  | uartwrite c i buf j => exact ⟨c, i + j, rfl, rfl⟩
  | releasesleep c i => exact ⟨c, i, rfl, rfl⟩

end

/-- In every run, after every step, the output is a sequence of contiguous blocks, one for each call
that has returned, each the first `r` bytes of the source where `r` is what the call returned, and
behind them what the call that holds the lock has put out. -/
theorem consolewrite_atomic (kmem : Nat → UInt8) (mem : Nat → AddressSpace) (txBusy : Bool)
    (ls : List WriteLabel) :
    Along (writeNext kmem) (fun _ _ s => Atomic kmem s) (.init mem txBusy) ls :=
  .of_invariant (WriteInv kmem) (fun _ _ _ h hstep _ => ⟨(h.step hstep).atomic, h.step hstep⟩)
    (writeInv_init kmem mem txBusy) (along_true _ _)

/-- Two processes with a call of two bytes each; the second faults behind its page. -/
def twoWriters : List WriteLabel :=
  let run p := WriteLabel.run p .free
  [.store 0 (pageOf "ab"), .store 1 (pageOf "cd"), .call 0 true 0 2, .call 1 true 4096 2, run 1,
    run 0, run 1, run 1, run 0, run 0, run 0, run 0, .uartintr, run 0, run 0, run 0, run 0]

example : (exec (writeNext fun _ => 0) (.init (fun _ => pageOf "") false) twoWriters).map
    (fun s => (s.out, s.returned.map fun w => (w.pid, w.ret))) =
      some ([97, 98], [(1, 0), (0, 2)]) := by decide

end LiberalOS.Kernel
