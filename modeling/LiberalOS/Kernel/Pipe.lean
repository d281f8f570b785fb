import LiberalOS.Foundation.Execution
import LiberalOS.Foundation.Ring

/-!
# Pipes

`pipewrite`, `piperead` and `pipeclose` of `kernel/pipe.c` with any number of readers and writers.
A transition is one iteration of a loop by the process that holds `pi->lock`, so that a `kill` may
come between two bytes of a write; but the test of `killed` before a `sleep` and the `sleep` are one
transition, and a `kill` between the two is none here. The counters are of type `uint` and wrap
around; `sent` and `received` record the bytes that went in and came out.

An end of the pipe is closed when no descriptor refers to it any more, and a process inside a call
has one, so that nobody is in a call on the end that is closed.

## Main results

* `fifo` — the bytes come out as they went in, and at most `PIPESIZE` are under way.
* `asleep_of_exec` — a process sleeps only as long as it has to, unless a writer was killed between
  two bytes.
* `no_deadlock` — a reader and a writer never wait for each other.
* `eof_of_exec` — a read ends with 0 when the write end is closed and everything has been read.
-/
namespace LiberalOS.Kernel.Pipes
open Foundation

abbrev pipesize : Nat := 512

theorem pipesize_pos : 0 < pipesize := by decide

/-! ## The pipe -/

structure Pipe where
  data : Fin pipesize → UInt8
  nread : Nat
  nwrite : Nat
  readopen : Bool
  writeopen : Bool

/-- Addition of the type `uint`. -/
def uintAdd (a b : Nat) : Nat := (a + b) % 4294967296

def Pipe.full (pi : Pipe) : Bool := pi.nwrite = uintAdd pi.nread pipesize

def Pipe.empty (pi : Pipe) : Bool := pi.nread = pi.nwrite

/-- `pi->data[pi->nwrite++ % PIPESIZE] = ch`. -/
def Pipe.push (pi : Pipe) (ch : UInt8) : Pipe :=
  { pi with
    data := Function.update pi.data (ringCell pipesize_pos pi.nwrite) ch
    nwrite := uintAdd pi.nwrite 1 }

/-- `pi->data[pi->nread % PIPESIZE]`. -/
def Pipe.peek (pi : Pipe) : UInt8 := pi.data (ringCell pipesize_pos pi.nread)

/-- `pi->nread++`. -/
def Pipe.pop (pi : Pipe) : Pipe := { pi with nread := uintAdd pi.nread 1 }

/-! ## Processes -/

/-- A process in a call waits for `pi->lock`, holds it, or sleeps. -/
inductive Stage where
  | waiting
  | running
  | asleep
  deriving DecidableEq

/-- A write has what `copyin` will get for the rest of its buffer, `none` where it fails, and the
number of bytes written. A read has its `n` and the bytes it got; it is `copying` after the first
loop. -/
inductive Call where
  | none
  | write (stage : Stage) (src : List (Option UInt8)) (i : Nat)
  | read (stage : Stage) (copying : Bool) (n : Nat) (got : List UInt8)
  deriving DecidableEq

def Call.isWrite : Call → Bool
  | .write _ _ _ => true
  | _ => false

def Call.isRead : Call → Bool
  | .read _ _ _ _ => true
  | _ => false

def Call.stage? : Call → Option Stage
  | .none => Option.none
  | .write stage _ _ => some stage
  | .read stage _ _ _ => some stage

def Call.setStage (c : Call) (stage : Stage) : Call :=
  match c with
  | .none => .none
  | .write _ src i => .write stage src i
  | .read _ copying n got => .read stage copying n got

/-- `wakeup(&pi->nread)` for one process. -/
def Call.wakeReader (c : Call) : Call :=
  if c.isRead ∧ c.stage? = some .asleep then c.setStage .waiting else c

/-- `wakeup(&pi->nwrite)` for one process. -/
def Call.wakeWriter (c : Call) : Call :=
  if c.isWrite ∧ c.stage? = some .asleep then c.setStage .waiting else c

structure State (n : Nat) where
  pipe : Pipe
  lock : Option (Fin n)
  call : Fin n → Call
  killed : Fin n → Bool
  sent : List UInt8
  received : List UInt8
  returns : List (Fin n × Int)

/-- After `pipealloc`. -/
def start (n : Nat) : State n where
  pipe := ⟨fun _ => 0, 0, 0, true, true⟩
  lock := none
  call _ := .none
  killed _ := false
  sent := []
  received := []
  returns := []

section
variable {n : Nat}

def State.setCall (s : State n) (p : Fin n) (c : Call) : State n :=
  { s with call := Function.update s.call p c }

def State.wakeReaders (s : State n) : State n := { s with call := fun q => (s.call q).wakeReader }

def State.wakeWriters (s : State n) : State n := { s with call := fun q => (s.call q).wakeWriter }

/-- The process releases the lock and returns from its call. -/
def State.ret (s : State n) (p : Fin n) (r : Int) : State n :=
  { s.setCall p .none with lock := none, returns := s.returns ++ [(p, r)] }

/-- The process sleeps and releases the lock. -/
def State.sleep (s : State n) (p : Fin n) : State n :=
  { s.setCall p ((s.call p).setStage .asleep) with lock := none }

/-- An iteration of the loop of `pipewrite`, and what follows the loop. -/
def writeStep (s : State n) (p : Fin n) (src : List (Option UInt8)) (i : Nat) : State n :=
  match src with
  | [] => s.wakeReaders.ret p i
  | c :: rest =>
    if s.pipe.readopen = false ∨ s.killed p then s.ret p (-1)
    else if s.pipe.full then s.wakeReaders.sleep p
    else
      match c with
      | none => s.wakeReaders.ret p i
      | some ch =>
        { s.setCall p (.write .running rest (i + 1)) with
          pipe := s.pipe.push ch, sent := s.sent ++ [ch] }

/-- An iteration of a loop of `piperead`, and what follows the loops; `ok` is whether `copyout`
succeeds. -/
def readStep (s : State n) (p : Fin n) (copying : Bool) (len : Nat) (got : List UInt8) (ok : Bool) :
    State n :=
  if copying = false then
    if s.pipe.empty ∧ s.pipe.writeopen then
      if s.killed p then s.ret p (-1) else s.sleep p
    else s.setCall p (.read .running true len got)
  else if got.length < len ∧ s.pipe.empty = false then
    if ok then
      { s.setCall p (.read .running true len (got ++ [s.pipe.peek])) with
        pipe := s.pipe.pop, received := s.received ++ [s.pipe.peek] }
    else s.wakeWriters.ret p (if got = [] then -1 else got.length)
  else s.wakeWriters.ret p got.length

/-- A call begins, the process gets the lock, it goes on, it is killed; or an end is closed. -/
inductive Label (n : Nat) where
  | write (p : Fin n) (src : List (Option UInt8))
  | read (p : Fin n) (len : Nat)
  | acquire (p : Fin n)
  | run (p : Fin n) (ok : Bool)
  | kill (p : Fin n)
  | closeWrite
  | closeRead
  deriving DecidableEq

def step (s : State n) : Label n → Option (State n)
  | .write p src =>
    if s.call p = .none ∧ s.pipe.writeopen then some (s.setCall p (.write .waiting src 0)) else none
  | .read p len =>
    if s.call p = .none ∧ s.pipe.readopen then some (s.setCall p (.read .waiting false len []))
    else none
  | .acquire p =>
    if s.lock = none ∧ (s.call p).stage? = some .waiting then
      some { s.setCall p ((s.call p).setStage .running) with lock := some p }
    else none
  | .run p ok =>
    if s.lock = some p then
      match s.call p with
      | .write .running src i => some (writeStep s p src i)
      | .read .running copying len got => some (readStep s p copying len got ok)
      | _ => none
    else none
  | .kill p =>
    let c := s.call p
    some { s.setCall p (if c.stage? = some .asleep then c.setStage .waiting else c) with
      killed := Function.update s.killed p true }
  | .closeWrite =>
    if s.lock = none ∧ s.pipe.writeopen ∧ ∀ p, (s.call p).isWrite = false then
      some { s.wakeReaders with pipe := { s.pipe with writeopen := false } }
    else none
  | .closeRead =>
    if s.lock = none ∧ s.pipe.readopen ∧ ∀ p, (s.call p).isRead = false then
      some { s.wakeWriters with pipe := { s.pipe with readopen := false } }
    else none

/-! ## First in, first out -/

/-- The counters, and the bytes under way. -/
structure Fifo (s : State n) : Prop where
  nread : s.pipe.nread = s.received.length % 4294967296
  nwrite : s.pipe.nwrite = s.sent.length % 4294967296
  le : s.received.length ≤ s.sent.length
  room : s.sent.length ≤ s.received.length + pipesize
  sent : s.sent = s.received ++
    segment pipesize_pos s.pipe.data s.received.length s.sent.length

theorem ringCell_mod (i : Nat) :
    ringCell pipesize_pos (i % 4294967296) = ringCell pipesize_pos i := by
  simp only [ringCell, pipesize, Fin.mk.injEq]
  omega

theorem uintAdd_mod (a b : Nat) : uintAdd (a % 4294967296) b = (a + b) % 4294967296 := by
  simp [uintAdd]

theorem Fifo.empty_iff {s : State n} (h : Fifo s) :
    s.pipe.empty = true ↔ s.received.length = s.sent.length := by
  obtain ⟨hread, hwrite, hle, hroom, -⟩ := h
  simp only [Pipe.empty, hread, hwrite, decide_eq_true_eq, pipesize] at hroom ⊢
  omega

theorem Fifo.full_iff {s : State n} (h : Fifo s) :
    s.pipe.full = true ↔ s.sent.length = s.received.length + pipesize := by
  obtain ⟨hread, hwrite, hle, hroom, -⟩ := h
  simp only [Pipe.full, hread, hwrite, uintAdd_mod, decide_eq_true_eq, pipesize] at hroom ⊢
  omega

theorem Fifo.of_same {s t : State n} (h : Fifo s) (hdata : t.pipe.data = s.pipe.data)
    (hread : t.pipe.nread = s.pipe.nread) (hwrite : t.pipe.nwrite = s.pipe.nwrite)
    (hsent : t.sent = s.sent) (hreceived : t.received = s.received) : Fifo t := by
  obtain ⟨h₁, h₂, h₃, h₄, h₅⟩ := h
  constructor <;> simp only [hdata, hread, hwrite, hsent, hreceived] <;> assumption

theorem Fifo.push {s t : State n} (h : Fifo s) (hfull : s.pipe.full = false) {ch : UInt8}
    (hpipe : t.pipe = s.pipe.push ch) (hsent : t.sent = s.sent ++ [ch])
    (hreceived : t.received = s.received) : Fifo t := by
  have hroom : s.sent.length < s.received.length + pipesize := by
    refine lt_of_le_of_ne h.room fun heq => ?_
    simp [h.full_iff.mpr heq] at hfull
  have hcell : (s.pipe.push ch).data =
      Function.update s.pipe.data (ringCell pipesize_pos s.sent.length) ch := by
    rw [Pipe.push, h.nwrite, ringCell_mod]
  constructor
  · rw [hpipe, hreceived]
    exact h.nread
  · rw [hpipe, hsent]
    simp [Pipe.push, h.nwrite, uintAdd]
  · rw [hsent, hreceived]
    simpa using Nat.le_succ_of_le h.le
  · rw [hsent, hreceived, List.length_append]
    exact hroom
  · rw [hpipe, hsent, hreceived, hcell, List.length_append, List.length_singleton,
      segment_push pipesize_pos _ h.le hroom, ← List.append_assoc, ← h.sent]

theorem Fifo.pop {s t : State n} (h : Fifo s) (hempty : s.pipe.empty = false)
    (hpipe : t.pipe = s.pipe.pop) (hsent : t.sent = s.sent)
    (hreceived : t.received = s.received ++ [s.pipe.peek]) : Fifo t := by
  have hlt : s.received.length < s.sent.length := by
    refine lt_of_le_of_ne h.le fun heq => ?_
    simp [h.empty_iff.mpr heq] at hempty
  have hpeek : s.pipe.peek = s.pipe.data (ringCell pipesize_pos s.received.length) := by
    rw [Pipe.peek, h.nread, ringCell_mod]
  constructor
  · rw [hpipe, hreceived]
    simp [Pipe.pop, h.nread, uintAdd]
  · rw [hpipe, hsent]
    exact h.nwrite
  · rw [hsent, hreceived, List.length_append]
    exact hlt
  · rw [hsent, hreceived]
    have := h.room
    simp only [List.length_append, List.length_singleton]
    omega
  · have hsegment := h.sent
    rw [segment_cons pipesize_pos _ hlt] at hsegment
    rw [hpipe, hsent, hreceived, List.append_assoc, hpeek, List.length_append,
      List.length_singleton]
    exact hsegment

theorem Fifo.writeStep {s : State n} (h : Fifo s) (p : Fin n) (src : List (Option UInt8))
    (i : Nat) : Fifo (writeStep s p src i) := by
  unfold Pipes.writeStep
  split
  · exact h.of_same rfl rfl rfl rfl rfl
  · split_ifs with hclosed hfull
    · exact h.of_same rfl rfl rfl rfl rfl
    · exact h.of_same rfl rfl rfl rfl rfl
    · split
      · exact h.of_same rfl rfl rfl rfl rfl
      · exact h.push (by simpa using hfull) rfl rfl rfl

theorem Fifo.readStep {s : State n} (h : Fifo s) (p : Fin n) (copying : Bool) (len : Nat)
    (got : List UInt8) (ok : Bool) : Fifo (readStep s p copying len got ok) := by
  unfold Pipes.readStep
  split_ifs with hcopying hwait hkilled hmore hok hgot
  · exact h.of_same rfl rfl rfl rfl rfl
  · exact h.of_same rfl rfl rfl rfl rfl
  · exact h.of_same rfl rfl rfl rfl rfl
  · exact h.pop hmore.2 rfl rfl rfl
  · exact h.of_same rfl rfl rfl rfl rfl
  · exact h.of_same rfl rfl rfl rfl rfl
  · exact h.of_same rfl rfl rfl rfl rfl

theorem Fifo.step {s t : State n} {l : Label n} (h : Fifo s) (hs : step s l = some t) :
    Fifo t := by
  cases l with
  | run p ok =>
    simp only [Pipes.step, Option.ite_none_right_eq_some] at hs
    obtain ⟨-, hs⟩ := hs
    split at hs
    · exact Option.some.inj hs ▸ h.writeStep p _ _
    · exact Option.some.inj hs ▸ h.readStep p _ _ _ ok
    · cases hs
  | kill p => exact Option.some.inj hs ▸ h.of_same rfl rfl rfl rfl rfl
  | _ =>
    simp only [Pipes.step, Option.ite_none_right_eq_some, Option.some.injEq] at hs
    exact hs.2 ▸ h.of_same rfl rfl rfl rfl rfl

theorem fifo_of_exec {ls : List (Label n)} {s : State n} (hs : exec step (start n) ls = some s) :
    Fifo s :=
  exec_invariant (I := Fifo) (fun _ _ _ hi hu => Fifo.step hi hu)
    ⟨rfl, rfl, Nat.le_refl _, Nat.zero_le _, rfl⟩ hs

/-- Whatever the order in which readers and writers get the lock, and however often the counters
have wrapped around, what has come out is what went in first, and the rest fits the buffer. -/
theorem fifo {ls : List (Label n)} {s : State n} (hs : exec step (start n) ls = some s) :
    ∃ rest, s.sent = s.received ++ rest ∧ rest.length ≤ pipesize := by
  have h := fifo_of_exec hs
  refine ⟨_, h.sent, ?_⟩
  rw [length_segment]
  have := h.room
  omega

/-- A reader waits, a writer writes two bytes, and the reader gets them. -/
def sampleRun : List (Label 2) :=
  [.read 1 4, .acquire 1, .run 1 true, .write 0 [some 7, some 8], .acquire 0, .run 0 true,
    .run 0 true, .run 0 true, .acquire 1, .run 1 true, .run 1 true, .run 1 true, .run 1 true]

theorem fifo_sampleRun : ∃ s, exec step (start 2) sampleRun = some s ∧ s.received = [7, 8] ∧
    ∃ rest, s.sent = s.received ++ rest ∧ rest.length ≤ pipesize := by
  have hend : (exec step (start 2) sampleRun).map State.received = some [7, 8] := by
    decide +kernel
  obtain ⟨s, hs, hreceived⟩ := Option.map_eq_some_iff.mp hend
  exact ⟨s, hs, hreceived, fifo hs⟩

/-! ## Sleeping -/

def Call.sleepsReading (c : Call) : Bool := c.isRead ∧ c.stage? = some .asleep

def Call.sleepsWriting (c : Call) : Bool := c.isWrite ∧ c.stage? = some .asleep

/-- A writer in the loop that has written something and has more to write. -/
def Call.betweenBytes : Call → Bool
  | .write .running src i => 0 < i ∧ src ≠ []
  | _ => false

/-- What a sleeping process waits for, unless the process with the lock is about to wake it up: a
writer does so after its last byte, a reader when it has copied. -/
structure Sleep (s : State n) : Prop where
  readers : ∀ q, (s.call q).sleepsReading = true → (s.pipe.empty ∧ s.pipe.writeopen) ∨
    ∃ p src i, s.lock = some p ∧ s.call p = .write .running src i ∧ 0 < i ∧
      (src ≠ [] → s.killed p = false ∧ s.pipe.readopen = true)
  writers : ∀ q, (s.call q).sleepsWriting = true → (s.pipe.full ∧ s.pipe.readopen) ∨
    ∃ p len got, s.lock = some p ∧ s.call p = .read .running true len got

/-- No process is killed between two bytes: then it would return without a wakeup. -/
def Calm (s : State n) (l : Label n) (_ : State n) : Prop :=
  match l with
  | .kill p => (s.call p).betweenBytes = false
  | _ => True

instance (s : State n) (l : Label n) (t : State n) : Decidable (Calm s l t) := by
  unfold Calm
  split <;> infer_instance

@[simp, grind =] theorem Call.stage_none : Call.none.stage? = Option.none := rfl

@[simp, grind =] theorem Call.stage_write (stage : Stage) (src : List (Option UInt8)) (i : Nat) :
    (Call.write stage src i).stage? = some stage := rfl

@[simp, grind =] theorem Call.stage_read (stage : Stage) (copying : Bool) (len : Nat)
    (got : List UInt8) : (Call.read stage copying len got).stage? = some stage := rfl

@[simp, grind =] theorem Call.sleepsReading_none : Call.none.sleepsReading = false := rfl

@[simp, grind =] theorem Call.sleepsReading_write (stage : Stage) (src : List (Option UInt8))
    (i : Nat) : (Call.write stage src i).sleepsReading = false := rfl

@[simp, grind =] theorem Call.sleepsReading_read (stage : Stage) (copying : Bool) (len : Nat)
    (got : List UInt8) :
    (Call.read stage copying len got).sleepsReading = decide (stage = .asleep) := by
  simp [Call.sleepsReading, Call.isRead]

@[simp, grind =] theorem Call.sleepsWriting_none : Call.none.sleepsWriting = false := rfl

@[simp, grind =] theorem Call.sleepsWriting_write (stage : Stage) (src : List (Option UInt8))
    (i : Nat) : (Call.write stage src i).sleepsWriting = decide (stage = .asleep) := by
  simp [Call.sleepsWriting, Call.isWrite]

@[simp, grind =] theorem Call.sleepsWriting_read (stage : Stage) (copying : Bool) (len : Nat)
    (got : List UInt8) : (Call.read stage copying len got).sleepsWriting = false := rfl

@[simp, grind =] theorem Call.wakeReader_sleepsReading (c : Call) :
    c.wakeReader.sleepsReading = false := by
  cases c <;> grind [Call.wakeReader, Call.sleepsReading, Call.isRead, Call.stage?, Call.setStage]

@[simp, grind =] theorem Call.wakeReader_sleepsWriting (c : Call) :
    c.wakeReader.sleepsWriting = c.sleepsWriting := by
  cases c <;> grind [Call.wakeReader, Call.sleepsWriting, Call.isRead, Call.isWrite, Call.stage?,
    Call.setStage]

@[simp, grind =] theorem Call.wakeWriter_sleepsWriting (c : Call) :
    c.wakeWriter.sleepsWriting = false := by
  cases c <;> grind [Call.wakeWriter, Call.sleepsWriting, Call.isWrite, Call.stage?, Call.setStage]

@[simp, grind =] theorem Call.wakeWriter_sleepsReading (c : Call) :
    c.wakeWriter.sleepsReading = c.sleepsReading := by
  cases c <;> grind [Call.wakeWriter, Call.sleepsReading, Call.isRead, Call.isWrite, Call.stage?,
    Call.setStage]

@[simp] theorem Call.wakeReader_running (c : Call) :
    c.wakeReader.stage? = some .running ↔ c.stage? = some .running := by
  cases c <;> grind [Call.wakeReader, Call.isRead, Call.stage?, Call.setStage]

@[simp] theorem Call.wakeWriter_running (c : Call) :
    c.wakeWriter.stage? = some .running ↔ c.stage? = some .running := by
  cases c <;> grind [Call.wakeWriter, Call.isWrite, Call.stage?, Call.setStage]

@[grind =] theorem State.setCall_call (s : State n) (p q : Fin n) (c : Call) :
    (s.setCall p c).call q = if q = p then c else s.call q := Function.update_apply _ _ _ _

@[grind =] theorem State.ret_call (s : State n) (p q : Fin n) (r : Int) :
    (s.ret p r).call q = if q = p then .none else s.call q := s.setCall_call p q _

@[grind =] theorem State.sleep_call (s : State n) (p q : Fin n) :
    (s.sleep p).call q = if q = p then (s.call p).setStage .asleep else s.call q :=
  s.setCall_call p q _

@[grind =] theorem State.wakeReaders_call (s : State n) (q : Fin n) :
    s.wakeReaders.call q = (s.call q).wakeReader := rfl

@[grind =] theorem State.wakeWriters_call (s : State n) (q : Fin n) :
    s.wakeWriters.call q = (s.call q).wakeWriter := rfl

@[simp, grind =] theorem State.setCall_pipe (s : State n) (p : Fin n) (c : Call) :
    (s.setCall p c).pipe = s.pipe := rfl

@[simp, grind =] theorem State.setCall_lock (s : State n) (p : Fin n) (c : Call) :
    (s.setCall p c).lock = s.lock := rfl

@[simp, grind =] theorem State.setCall_killed (s : State n) (p : Fin n) (c : Call) :
    (s.setCall p c).killed = s.killed := rfl

@[simp, grind =] theorem State.ret_pipe (s : State n) (p : Fin n) (r : Int) :
    (s.ret p r).pipe = s.pipe := rfl

@[simp, grind =] theorem State.ret_lock (s : State n) (p : Fin n) (r : Int) :
    (s.ret p r).lock = none := rfl

@[simp, grind =] theorem State.sleep_pipe (s : State n) (p : Fin n) :
    (s.sleep p).pipe = s.pipe := rfl

@[simp, grind =] theorem State.sleep_lock (s : State n) (p : Fin n) :
    (s.sleep p).lock = none := rfl

@[simp, grind =] theorem State.wakeReaders_pipe (s : State n) : s.wakeReaders.pipe = s.pipe := rfl

@[simp, grind =] theorem State.wakeWriters_pipe (s : State n) : s.wakeWriters.pipe = s.pipe := rfl

@[simp, grind =] theorem Call.setStage_write (stage t : Stage) (src : List (Option UInt8))
    (i : Nat) : (Call.write t src i).setStage stage = .write stage src i := rfl

@[simp, grind =] theorem Call.setStage_read (stage t : Stage) (copying : Bool) (len : Nat)
    (got : List UInt8) :
    (Call.read t copying len got).setStage stage = .read stage copying len got := rfl

@[simp, grind =] theorem Call.wakeReader_write (stage : Stage) (src : List (Option UInt8))
    (i : Nat) : (Call.write stage src i).wakeReader = .write stage src i := by
  simp [Call.wakeReader, Call.isRead]

/-- The running process has the lock. -/
def Locked (s : State n) : Prop := ∀ p, (s.call p).stage? = some .running ↔ s.lock = some p

theorem Locked.eq {s : State n} (h : Locked s) {p q : Fin n} (hp : s.lock = some p)
    (hq : (s.call q).stage? = some .running) : q = p :=
  Option.some.inj (((h q).mp hq).symm.trans hp)

theorem Locked.writeStep {s : State n} (h : Locked s) {p : Fin n} {src : List (Option UInt8)}
    {i : Nat} (hp : s.call p = .write .running src i) (hlock : s.lock = some p) :
    Locked (writeStep s p src i) := by
  intro q
  have hothers := h.eq hlock (q := q)
  have hwake := Call.wakeReader_running (s.call q)
  unfold Pipes.writeStep
  split
  · grind
  · split_ifs
    · grind
    · grind
    · split <;> grind

theorem Locked.readStep {s : State n} (h : Locked s) {p : Fin n} {copying : Bool} {len : Nat}
    {got : List UInt8} (hp : s.call p = .read .running copying len got) (hlock : s.lock = some p)
    (ok : Bool) : Locked (readStep s p copying len got ok) := by
  intro q
  have hothers := h.eq hlock (q := q)
  have hwake := Call.wakeWriter_running (s.call q)
  unfold Pipes.readStep
  split_ifs <;> grind

theorem Locked.step {s t : State n} {l : Label n} (h : Locked s) (hs : step s l = some t) :
    Locked t := by
  cases l with
  | run p ok =>
    simp only [Pipes.step, Option.ite_none_right_eq_some] at hs
    obtain ⟨hp, hs⟩ := hs
    split at hs
    · next src i hcall => exact Option.some.inj hs ▸ h.writeStep hcall hp
    · next copying len got hcall => exact Option.some.inj hs ▸ h.readStep hcall hp ok
    · cases hs
  | closeWrite =>
    simp only [Pipes.step, Option.ite_none_right_eq_some, Option.some.injEq] at hs
    exact hs.2 ▸ fun q => (Call.wakeReader_running _).trans (h q)
  | closeRead =>
    simp only [Pipes.step, Option.ite_none_right_eq_some, Option.some.injEq] at hs
    exact hs.2 ▸ fun q => (Call.wakeWriter_running _).trans (h q)
  | kill p =>
    obtain rfl := Option.some.inj hs
    intro q
    have := h q
    cases hc : s.call p <;> grind
  | write p src | read p len =>
    simp only [Pipes.step, Option.ite_none_right_eq_some, Option.some.injEq] at hs
    obtain ⟨⟨hnone, -⟩, rfl⟩ := hs
    intro q
    have := h q
    have := h p
    grind
  | acquire p =>
    simp only [Pipes.step, Option.ite_none_right_eq_some, Option.some.injEq] at hs
    obtain ⟨⟨hfree, hwaiting⟩, rfl⟩ := hs
    intro q
    have := h q
    cases hc : s.call p <;> grind

theorem Sleep.writeStep {s : State n} (h : Sleep s) {p : Fin n} {src : List (Option UInt8)}
    {i : Nat} (hp : s.call p = .write .running src i) (hlock : s.lock = some p) :
    Sleep (writeStep s p src i) := by
  have hwriters : ∀ q, (s.call q).sleepsWriting = true → s.pipe.full ∧ s.pipe.readopen :=
    fun q hq => (h.writers q hq).resolve_right (by grind)
  -- after a wakeup and a return nobody sleeps in vain
  have hreturn : Sleep (s.wakeReaders.ret p i) := by
    refine ⟨fun q hq => ?_, fun q hq => Or.inl (hwriters q ?_)⟩
    · grind
    · grind
  unfold Pipes.writeStep
  split
  · exact hreturn
  · next c rest =>
    split_ifs with hclosed hfull
    · refine ⟨fun q hq => Or.inl ?_, fun q hq => Or.inl (hwriters q ?_)⟩
      · -- whoever sleeps beside a byte keeps this writer from getting here
        have := h.readers q
        grind
      · grind
    · refine ⟨fun q hq => ?_, fun q hq => Or.inl ?_⟩
      · grind
      · have hopen : s.pipe.readopen = true := by grind
        exact ⟨hfull, hopen⟩
    · split
      · exact hreturn
      · refine ⟨fun q hq => Or.inr ?_, fun q hq => ?_⟩
        · have hopen : s.killed p = false ∧ s.pipe.readopen = true := by grind
          exact ⟨p, rest, i + 1, hlock, by simp [State.setCall], i.succ_pos, fun _ => hopen⟩
        · have := hwriters q
          grind

theorem Sleep.readStep {s : State n} (h : Sleep s) {p : Fin n} {copying : Bool} {len : Nat}
    {got : List UInt8} (hp : s.call p = .read .running copying len got) (hlock : s.lock = some p)
    (ok : Bool) : Sleep (readStep s p copying len got ok) := by
  have hreaders : ∀ q, (s.call q).sleepsReading = true → s.pipe.empty ∧ s.pipe.writeopen :=
    fun q hq => (h.readers q hq).resolve_right (by grind)
  -- after a wakeup and a return nobody sleeps in vain
  have hreturn (r : Int) : Sleep (s.wakeWriters.ret p r) := by
    refine ⟨fun q hq => Or.inl (hreaders q ?_), fun q hq => ?_⟩
    · grind
    · grind
  unfold Pipes.readStep
  split_ifs with hcopying hwait hkilled hmore hok hgot
  · refine ⟨fun q _ => Or.inl hwait, fun q hq => Or.inl ?_⟩
    have := h.writers q
    grind
  · refine ⟨fun q _ => Or.inl hwait, fun q hq => Or.inl ?_⟩
    have := h.writers q
    grind
  · refine ⟨fun q hq => ?_, fun q hq => Or.inr ?_⟩
    · have := hreaders q
      grind
    · exact ⟨p, len, got, hlock, by simp [State.setCall]⟩
  · refine ⟨fun q hq => ?_, fun q hq => Or.inr ?_⟩
    · have := hreaders q
      grind
    · exact ⟨p, len, _, hlock, by simp [State.setCall]; rfl⟩
  · exact hreturn _
  · exact hreturn _
  · exact hreturn _

/-- A call begins. -/
theorem Sleep.enter {s : State n} (h : Sleep s) {p : Fin n} {c : Call}
    (hnone : s.call p = .none) (hreading : c.sleepsReading = false)
    (hwriting : c.sleepsWriting = false) : Sleep (s.setCall p c) := by
  refine ⟨fun q hq => ?_, fun q hq => ?_⟩
  · have hold : (s.call q).sleepsReading = true := by grind
    refine (h.readers q hold).imp_right fun ⟨r, src, i, hr, hcall, hrest⟩ => ?_
    exact ⟨r, src, i, hr, by grind, hrest⟩
  · have hold : (s.call q).sleepsWriting = true := by grind
    refine (h.writers q hold).imp_right fun ⟨r, len, got, hr, hcall⟩ => ?_
    exact ⟨r, len, got, hr, by grind⟩

theorem Sleep.acquire {s t : State n} {p : Fin n} (h : Sleep s)
    (hs : step s (.acquire p) = some t) : Sleep t := by
  simp only [Pipes.step, Option.ite_none_right_eq_some, Option.some.injEq] at hs
  obtain ⟨⟨hfree, hwaiting⟩, rfl⟩ := hs
  have hreaders : ∀ q, (s.call q).sleepsReading = true → s.pipe.empty ∧ s.pipe.writeopen :=
    fun q hq => (h.readers q hq).resolve_right (by grind)
  have hwriters : ∀ q, (s.call q).sleepsWriting = true → s.pipe.full ∧ s.pipe.readopen :=
    fun q hq => (h.writers q hq).resolve_right (by grind)
  refine ⟨fun q hq => Or.inl (hreaders q ?_), fun q hq => Or.inl (hwriters q ?_)⟩
  · cases hc : s.call p <;> grind
  · cases hc : s.call p <;> grind

theorem Sleep.kill {s t : State n} {p : Fin n} (h : Sleep s) (hs : step s (.kill p) = some t)
    (hcalm : Calm s (.kill p) t) : Sleep t := by
  obtain rfl := Option.some.inj hs
  refine ⟨fun q hq => ?_, fun q hq => ?_⟩
  · have hold : (s.call q).sleepsReading = true := by cases hc : s.call p <;> grind
    refine (h.readers q hold).imp_right fun ⟨r, src, i, hr, hcall, hi, hrest⟩ => ?_
    refine ⟨r, src, i, hr, by grind, hi, fun hsrc => ?_⟩
    obtain ⟨hkilled, hopen⟩ := hrest hsrc
    have hne : r ≠ p := by
      rintro rfl
      simp [Calm, hcall, Call.betweenBytes, hi, hsrc] at hcalm
    exact ⟨by simpa [Function.update_of_ne hne] using hkilled, hopen⟩
  · have hold : (s.call q).sleepsWriting = true := by cases hc : s.call p <;> grind
    refine (h.writers q hold).imp_right fun ⟨r, len, got, hr, hcall⟩ => ?_
    exact ⟨r, len, got, hr, by grind⟩

theorem Sleep.step {s t : State n} {l : Label n} (h : Sleep s) (hs : step s l = some t)
    (hcalm : Calm s l t) : Sleep t := by
  cases l with
  | run p ok =>
    simp only [Pipes.step, Option.ite_none_right_eq_some] at hs
    obtain ⟨hp, hs⟩ := hs
    split at hs
    · next src i hcall => exact Option.some.inj hs ▸ h.writeStep hcall hp
    · next copying len got hcall => exact Option.some.inj hs ▸ h.readStep hcall hp ok
    · cases hs
  | write p src | read p len =>
    simp only [Pipes.step, Option.ite_none_right_eq_some, Option.some.injEq] at hs
    exact hs.2 ▸ h.enter hs.1.1 rfl rfl
  | acquire p => exact h.acquire hs
  | kill p => exact h.kill hs hcalm
  | closeWrite =>
    simp only [Pipes.step, Option.ite_none_right_eq_some, Option.some.injEq] at hs
    obtain ⟨⟨-, -, hnone⟩, rfl⟩ := hs
    refine ⟨fun q hq => ?_, fun q hq => ?_⟩
    · simp [State.wakeReaders] at hq
    · have hwrite := hnone q
      simp only [State.wakeReaders, Call.wakeReader_sleepsWriting] at hq
      simp [Call.sleepsWriting, hwrite] at hq
  | closeRead =>
    simp only [Pipes.step, Option.ite_none_right_eq_some, Option.some.injEq] at hs
    obtain ⟨⟨-, -, hnone⟩, rfl⟩ := hs
    refine ⟨fun q hq => ?_, fun q hq => ?_⟩
    · have hread := hnone q
      simp only [State.wakeWriters, Call.wakeWriter_sleepsReading] at hq
      simp [Call.sleepsReading, hread] at hq
    · simp [State.wakeWriters] at hq

theorem Locked.start (n : Nat) : Locked (start n) := fun p => by simp [Pipes.start]

theorem Sleep.start (n : Nat) : Sleep (start n) :=
  ⟨fun q hq => by simp [Pipes.start] at hq, fun q hq => by simp [Pipes.start] at hq⟩

theorem locked_of_exec {ls : List (Label n)} {s : State n}
    (hs : exec step (start n) ls = some s) : Locked s :=
  exec_invariant (I := Locked) (fun _ _ _ hi hu => Locked.step hi hu) (.start n) hs

theorem sleep_of_exec {ls : List (Label n)} {s : State n} (hs : exec step (start n) ls = some s)
    (hcalm : Along step Calm (start n) ls) : Sleep s :=
  exec_invariant_of_along (I := Sleep) (fun _ _ _ _ hi hu hc => Sleep.step hi hu hc) (.start n) hs
    hcalm

/-- While no process is inside the pipe, a sleeping reader has nothing to read and may still get
something, and a sleeping writer has no room and may still be read from. -/
theorem asleep_of_exec {ls : List (Label n)} {s : State n} (hs : exec step (start n) ls = some s)
    (hcalm : Along step Calm (start n) ls) (hfree : s.lock = none) (p : Fin n) :
    ((s.call p).sleepsReading → s.received = s.sent ∧ s.pipe.writeopen) ∧
      ((s.call p).sleepsWriting →
        s.sent.length = s.received.length + pipesize ∧ s.pipe.readopen) := by
  have h := sleep_of_exec hs hcalm
  have hfifo := fifo_of_exec hs
  refine ⟨fun hp => ?_, fun hp => ?_⟩
  · obtain ⟨hempty, hopen⟩ := (h.readers p hp).resolve_right (by grind)
    refine ⟨?_, hopen⟩
    have hsent := hfifo.sent
    rw [segment_of_le pipesize_pos _ (hfifo.empty_iff.mp hempty).ge, List.append_nil] at hsent
    exact hsent.symm
  · obtain ⟨hfull, hopen⟩ := (h.writers p hp).resolve_right (by grind)
    exact ⟨hfifo.full_iff.mp hfull, hopen⟩

theorem asleep_of_exec_sampleRun : ∃ s, exec step (start 2) (sampleRun.take 3) = some s ∧
    s.received = s.sent ∧ s.pipe.writeopen = true := by
  have hend : (exec step (start 2) (sampleRun.take 3)).map
      (fun s => (s.lock, (s.call 1).sleepsReading)) = some (none, true) := by
    decide +kernel
  obtain ⟨s, hs, hend⟩ := Option.map_eq_some_iff.mp hend
  simp only [Prod.mk.injEq] at hend
  exact ⟨s, hs, (asleep_of_exec hs (by decide +kernel) hend.1 1).1 hend.2⟩

/-- A writer that is killed between two bytes leaves the reader asleep beside the first. -/
example : (exec step (start 2) [.read 1 4, .acquire 1, .run 1 true, .write 0 [some 7, some 8],
    .acquire 0, .run 0 true, .kill 0, .run 0 true]).map
      (fun s => (s.call 1, s.lock, s.sent, s.received)) =
    some (.read .asleep false 4 [], none, [7], []) := by decide

/-- When one process is in a read and another in a write, one of the two can go on or some process
is inside the pipe. -/
theorem no_deadlock {ls : List (Label n)} {s : State n} (hs : exec step (start n) ls = some s)
    (hcalm : Along step Calm (start n) ls) {r w : Fin n} (hr : (s.call r).isRead = true)
    (hw : (s.call w).isWrite = true) :
    ∃ p, (step s (.acquire p)).isSome ∨ ∀ ok, (step s (.run p ok)).isSome := by
  have hlocked := locked_of_exec hs
  cases hlock : s.lock with
  | some p =>
    have hrun := (hlocked p).mpr hlock
    refine ⟨p, Or.inr fun ok => ?_⟩
    cases hc : s.call p <;> simp [step, hlock, hc] at hrun ⊢ <;> simp [hrun]
  | none =>
    by_cases hwaiting : ∃ p, (s.call p).stage? = some .waiting
    · obtain ⟨p, hp⟩ := hwaiting
      exact ⟨p, Or.inl (by simp [step, hlock, hp])⟩
    · -- both are asleep, but the pipe cannot be empty and full
      have hasleep (p : Fin n) (stage : Stage) (hp : (s.call p).stage? = some stage) :
          stage = .asleep := by
        have hnotrun := hlocked p
        cases stage <;> grind
      obtain ⟨hreader, -⟩ := asleep_of_exec hs hcalm hlock r
      obtain ⟨-, hwriter⟩ := asleep_of_exec hs hcalm hlock w
      have hrs : (s.call r).sleepsReading = true := by
        cases hc : s.call r <;> simp [hc, Call.isRead] at hr ⊢
        exact hasleep r _ (by rw [hc]; rfl)
      have hws : (s.call w).sleepsWriting = true := by
        cases hc : s.call w <;> simp [hc, Call.isWrite] at hw ⊢
        exact hasleep w _ (by rw [hc]; rfl)
      have hempty := congrArg List.length (hreader hrs).1
      have hfull := (hwriter hws).1
      simp only [pipesize] at hfull
      omega

theorem no_deadlock_sampleRun : ∃ s, exec step (start 2) (sampleRun.take 4) = some s ∧
    ∃ p, (step s (.acquire p)).isSome ∨ ∀ ok, (step s (.run p ok)).isSome := by
  have hend : (exec step (start 2) (sampleRun.take 4)).map
      (fun s => ((s.call 1).isRead, (s.call 0).isWrite)) = some (true, true) := by
    decide +kernel
  obtain ⟨s, hs, hend⟩ := Option.map_eq_some_iff.mp hend
  simp only [Prod.mk.injEq] at hend
  exact ⟨s, hs, no_deadlock hs (by decide +kernel) hend.1 hend.2⟩

/-! ## End of file -/

/-- A reader that has begun to copy has the lock and found something, or the end. -/
structure Ended (s : State n) : Prop where
  running : ∀ p stage len got, s.call p = .read stage true len got → stage = .running
  copying : ∀ p len, s.call p = .read .running true len [] →
    s.pipe.empty = false ∨ s.pipe.writeopen = false
  closed : s.pipe.writeopen = false → ∀ p, (s.call p).isWrite = false

@[simp, grind =] theorem Call.isWrite_none : Call.none.isWrite = false := rfl

@[simp, grind =] theorem Call.isWrite_write (stage : Stage) (src : List (Option UInt8)) (i : Nat) :
    (Call.write stage src i).isWrite = true := rfl

@[simp, grind =] theorem Call.isWrite_read (stage : Stage) (copying : Bool) (len : Nat)
    (got : List UInt8) : (Call.read stage copying len got).isWrite = false := rfl

@[simp, grind =] theorem Call.isWrite_setStage (c : Call) (stage : Stage) :
    (c.setStage stage).isWrite = c.isWrite := by
  cases c <;> rfl

/-- A wakeup changes the stage of a sleeping process only. -/
theorem Call.wakeReader_cases (c : Call) :
    c.wakeReader = c ∨ c.stage? = some .asleep ∧ c.wakeReader = c.setStage .waiting := by
  unfold Call.wakeReader
  split
  · next h => exact Or.inr ⟨h.2, rfl⟩
  · exact Or.inl rfl

theorem Call.wakeWriter_cases (c : Call) :
    c.wakeWriter = c ∨ c.stage? = some .asleep ∧ c.wakeWriter = c.setStage .waiting := by
  unfold Call.wakeWriter
  split
  · next h => exact Or.inr ⟨h.2, rfl⟩
  · exact Or.inl rfl

/-- Calls that go on as they were or are woken up, and new ones that have not begun to copy. -/
theorem Ended.of_calls {s t : State n} (h : Ended s)
    (hempty : ∀ q len, s.call q = .read .running true len [] → t.pipe.empty = s.pipe.empty)
    (hopen : t.pipe.writeopen = s.pipe.writeopen)
    (hcall : ∀ q, t.call q = s.call q ∨
      (s.call q).stage? = some .asleep ∧ t.call q = (s.call q).setStage .waiting ∨
      (∀ stage len got, t.call q ≠ .read stage true len got) ∧
        ((t.call q).isWrite = true → s.pipe.writeopen = true)) : Ended t := by
  obtain ⟨hrunning, hcopying, hclosed⟩ := h
  refine ⟨fun q stage len got hq => ?_, fun q len hq => ?_, fun hno q => ?_⟩
  · have := hrunning q
    have := hcall q
    cases hc : s.call q <;> grind
  · have := hcopying q len
    have := hrunning q
    have := hcall q
    have := hempty q len
    cases hc : s.call q <;> grind
  · have := hclosed (hopen ▸ hno) q
    have := hcall q
    grind

theorem Ended.writeStep {s : State n} (h : Ended s) (hlocked : Locked s) {p : Fin n}
    {src : List (Option UInt8)} {i : Nat} (hp : s.call p = .write .running src i)
    (hlock : s.lock = some p) : Ended (writeStep s p src i) := by
  have hwriteopen : s.pipe.writeopen = true := by
    by_contra hno
    have := h.closed (by simpa using hno) p
    grind
  unfold Pipes.writeStep
  split
  · refine h.of_calls (fun _ _ _ => rfl) rfl fun q => ?_
    have := Call.wakeReader_cases (s.call q)
    grind
  · split_ifs
    · refine h.of_calls (fun _ _ _ => rfl) rfl fun q => ?_
      grind
    · refine h.of_calls (fun _ _ _ => rfl) rfl fun q => ?_
      have := Call.wakeReader_cases (s.call q)
      grind
    · split
      · refine h.of_calls (fun _ _ _ => rfl) rfl fun q => ?_
        have := Call.wakeReader_cases (s.call q)
        grind
      · refine h.of_calls (fun q len hq => ?_) rfl fun q => ?_
        · have := hlocked.eq hlock (q := q)
          grind
        · grind

theorem Ended.readStep {s : State n} (h : Ended s) {p : Fin n} {copying : Bool} {len : Nat}
    {got : List UInt8} (hp : s.call p = .read .running copying len got) (hlocked : Locked s)
    (hlock : s.lock = some p) (ok : Bool) : Ended (readStep s p copying len got ok) := by
  have hreturn (r : Int) : Ended (s.wakeWriters.ret p r) := by
    refine h.of_calls (fun _ _ _ => rfl) rfl fun q => ?_
    have := Call.wakeWriter_cases (s.call q)
    grind
  have hothers : ∀ q stage len got, q ≠ p → s.call q ≠ .read stage true len got :=
    fun q stage len got hq hcall => hq (hlocked.eq hlock (by
      rw [hcall, Call.stage_read, h.running q stage len got hcall]))
  obtain ⟨hrunning, hcopying, hclosed⟩ := h
  unfold Pipes.readStep
  split_ifs with hcop hwait hkilled hmore hok hgot
  · exact Ended.of_calls ⟨hrunning, hcopying, hclosed⟩ (fun _ _ _ => rfl) rfl fun q => by grind
  · exact Ended.of_calls ⟨hrunning, hcopying, hclosed⟩ (fun _ _ _ => rfl) rfl fun q => by grind
  · refine ⟨fun q stage len' got' hq => ?_, fun q len' hq => ?_, fun hno q => ?_⟩
    · have := hothers q stage len' got'
      grind
    · have := hothers q .running len' []
      grind
    · have := hclosed hno q
      grind
  · refine ⟨fun q stage len' got' hq => ?_, fun q len' hq => ?_, fun hno q => ?_⟩
    · have := hothers q stage len' got'
      grind
    · by_cases hqp : q = p
      · simp [hqp, State.setCall_call] at hq
      · have := hothers q .running len' [] hqp
        grind
    · have := hclosed hno q
      grind
  · exact hreturn _
  · exact hreturn _
  · exact hreturn _

theorem Ended.step {s t : State n} {l : Label n} (h : Ended s) (hlocked : Locked s)
    (hs : step s l = some t) : Ended t := by
  cases l with
  | run p ok =>
    simp only [Pipes.step, Option.ite_none_right_eq_some] at hs
    obtain ⟨hp, hs⟩ := hs
    split at hs
    · next src i hcall => exact Option.some.inj hs ▸ h.writeStep hlocked hcall hp
    · next copying len got hcall => exact Option.some.inj hs ▸ h.readStep hcall hlocked hp ok
    · cases hs
  | write p src =>
    simp only [Pipes.step, Option.ite_none_right_eq_some, Option.some.injEq] at hs
    obtain ⟨⟨-, hopen⟩, rfl⟩ := hs
    exact h.of_calls (fun _ _ _ => rfl) rfl fun q => by grind
  | read p len =>
    simp only [Pipes.step, Option.ite_none_right_eq_some, Option.some.injEq] at hs
    obtain ⟨-, rfl⟩ := hs
    exact h.of_calls (fun _ _ _ => rfl) rfl fun q => by grind
  | acquire p =>
    simp only [Pipes.step, Option.ite_none_right_eq_some, Option.some.injEq] at hs
    obtain ⟨⟨hfree, hwaiting⟩, rfl⟩ := hs
    refine h.of_calls (fun _ _ _ => rfl) rfl fun q => ?_
    have := h.running p
    have := h.closed
    cases hc : s.call p <;> grind
  | kill p =>
    obtain rfl := Option.some.inj hs
    refine h.of_calls (fun _ _ _ => rfl) rfl fun q => ?_
    simp only [State.setCall_call]
    grind
  | closeWrite =>
    simp only [Pipes.step, Option.ite_none_right_eq_some, Option.some.injEq] at hs
    obtain ⟨⟨-, -, hnone⟩, rfl⟩ := hs
    refine ⟨fun q stage len got hq => ?_, fun q len hq => Or.inr rfl, fun _ q => ?_⟩
    · have := h.running q stage len got
      have := h.running q .asleep
      have := Call.wakeReader_cases (s.call q)
      simp only [State.wakeReaders] at hq
      cases hc : s.call q <;> grind
    · have := hnone q
      have := Call.wakeReader_cases (s.call q)
      simp only [State.wakeReaders]
      grind
  | closeRead =>
    simp only [Pipes.step, Option.ite_none_right_eq_some, Option.some.injEq] at hs
    obtain ⟨-, rfl⟩ := hs
    refine h.of_calls (fun _ _ _ => rfl) rfl fun q => ?_
    exact (Call.wakeWriter_cases (s.call q)).elim Or.inl fun hw => Or.inr (Or.inl hw)

theorem ended_of_exec {ls : List (Label n)} {s : State n}
    (hs : exec step (start n) ls = some s) : Ended s ∧ Locked s :=
  exec_invariant (I := fun s => Ended s ∧ Locked s)
    (fun _ _ _ hi hu => ⟨Ended.step hi.1 hi.2 hu, Locked.step hi.2 hu⟩)
    ⟨⟨by simp [start], by simp [start], by simp [start]⟩, .start n⟩ hs

/-- Nothing is written to a pipe whose write end is closed. -/
theorem sent_of_closed {s t : State n} {l : Label n} (h : Ended s)
    (hclosed : s.pipe.writeopen = false) (hs : step s l = some t) :
    t.sent = s.sent ∧ t.pipe.writeopen = false := by
  cases l with
  | run p ok =>
    have hnone := h.closed hclosed p
    simp only [step, Option.ite_none_right_eq_some] at hs
    obtain ⟨-, hs⟩ := hs
    split at hs
    · next src i hcall => simp [hcall] at hnone
    · obtain rfl := Option.some.inj hs
      unfold readStep
      split_ifs <;> exact ⟨rfl, hclosed⟩
    · cases hs
  | kill p => exact Option.some.inj hs ▸ ⟨rfl, hclosed⟩
  | _ =>
    simp only [step, Option.ite_none_right_eq_some, Option.some.injEq] at hs
    obtain ⟨-, rfl⟩ := hs
    first | exact ⟨rfl, hclosed⟩ | exact ⟨rfl, rfl⟩

/-- A read of at least one byte returns 0 only at the end of the file: all that was ever sent has
been received, and nothing will be sent any more. -/
theorem eof_of_exec {ls ms : List (Label n)} {s t u : State n} {p : Fin n} {len : Nat} {ok : Bool}
    (hs : exec step (start n) ls = some s) (hcall : s.call p = .read .running true len [])
    (hlen : 0 < len) (ht : step s (.run p ok) = some t) (hret : t.returns = s.returns ++ [(p, 0)])
    (hu : exec step t ms = some u) : u.sent = s.received ∧ s.sent = s.received := by
  obtain ⟨hended, hlocked⟩ := ended_of_exec hs
  have hfifo := fifo_of_exec hs
  simp only [step, hcall, Option.ite_none_right_eq_some, Option.some.injEq] at ht
  obtain ⟨hlock, rfl⟩ := ht
  have hempty : s.pipe.empty = true := by
    by_contra hne
    have hne : s.pipe.empty = false := by simpa using hne
    cases ok <;> simp [readStep, hlen, hne, State.ret, State.wakeWriters, State.setCall] at hret
  have hclosed : s.pipe.writeopen = false :=
    (hended.copying p len hcall).resolve_left (by simp [hempty])
  have hsent : s.sent = s.received := by
    have := hfifo.sent
    rwa [segment_of_le pipesize_pos _ (hfifo.empty_iff.mp hempty).ge, List.append_nil] at this
  have hstep : step s (.run p ok) = some (readStep s p true len [] ok) := by
    simp [step, hcall, hlock]
  have hlater := exec_invariant
    (I := fun v => Ended v ∧ Locked v ∧ v.sent = s.sent ∧ v.pipe.writeopen = false)
    (fun v l w ⟨hv, hvl, hvs, hvc⟩ hw => by
      obtain ⟨hws, hwc⟩ := sent_of_closed hv hvc hw
      exact ⟨hv.step hvl hw, hvl.step hw, hws.trans hvs, hwc⟩)
    ⟨hended.step hlocked hstep, hlocked.step hstep, (sent_of_closed hended hclosed hstep).1,
      (sent_of_closed hended hclosed hstep).2⟩ hu
  exact ⟨hlater.2.2.1.trans hsent, hsent⟩

/-- The write end of the pipe of `sampleRun` is closed, and the reader reads on. -/
theorem eof_of_exec_sampleRun : ∃ s, exec step (start 2)
    (sampleRun ++ [.closeWrite, .read 1 4, .acquire 1, .run 1 true]) = some s ∧
      s.sent = s.received := by
  have hend : (exec step (start 2)
      (sampleRun ++ [.closeWrite, .read 1 4, .acquire 1, .run 1 true])).map
        (fun s => (s.call 1, s.lock, s.pipe.empty)) =
      some (.read .running true 4 [], some 1, true) := by
    decide +kernel
  obtain ⟨s, hs, hend⟩ := Option.map_eq_some_iff.mp hend
  simp only [Prod.mk.injEq] at hend
  obtain ⟨hcall, hlock, hempty⟩ := hend
  have hrun : step s (.run 1 true) = some (s.wakeWriters.ret 1 0) := by
    simp [step, hcall, hlock, readStep, hempty]
  exact ⟨s, hs, (eof_of_exec hs hcall (by decide) hrun rfl (exec_nil _)).2⟩

end
end LiberalOS.Kernel.Pipes
