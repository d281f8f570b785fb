import LiberalOS.Kernel.Console
import LiberalOS.Proxy.System

/-!
# The console shared by processes and the host

Any number of processes call `proxy_call` and write lines of their own. A `write` to the console
sends its bytes one at a time under `cons_write_lock`; `consoleintr` echoes the bytes of a reply in
between, under `cons.lock`, which keeps off readers but not writers. The host answers a request once
its newline is out.

The state also records where each request began to be written, which no step reads.

## Main definitions

* `frameNext` — the system.
* `ControlStep`, `TransferStep` — its transitions, by what they do.
-/
namespace LiberalOS.Proxy
open Foundation Console

/-! ## States -/

/-- Where a process is: outside of these calls, in front of `proxylock`, in a `write` to the console
before and behind its `acquiresleep`, in `proxy_recv`, or in front of `proxyunlock`. The write of a
request carries the call it belongs to. -/
inductive FramePc where
  | idle
  | locking (c : CallArgs)
  | wants (line : List UInt8) (call : Option CallArgs)
  | writing (left : List UInt8) (call : Option CallArgs)
  | receiving (line : List UInt8)
  | leaving

/-- A request of process `pid` that begins behind the first `off` bytes of the output. -/
structure Block where
  pid : Nat
  off : Nat
  line : List UInt8

/-- `lock` and `writer` are the holders of the proxy lock and of `cons_write_lock`, `echo` is what
`consoleintr` has to send before it is done with a byte. Requests are `owed` a reply, and `wire` are
the bytes the host has sent. -/
structure FrameState where
  pc : Nat → FramePc
  lock : Option Nat
  writer : Option Nat
  cons : Cons
  echo : List UInt8
  out : List UInt8
  owed : List Nat
  wire : List UInt8
  blocks : List Block

def FrameState.init (cons : Cons) : FrameState :=
  ⟨fun _ => .idle, none, none, cons, [], [], [], [], []⟩

def FrameState.goto (s : FrameState) (pid : Nat) (pc : FramePc) : FrameState :=
  { s with pc := Function.update s.pc pid pc }

/-! ## Steps -/

/-- `proxylock`, and the tests of `proxy_send`. -/
def lockStep (s : FrameState) (pid : Nat) (c : CallArgs) : Option FrameState :=
  if s.lock = none then
    some ({ s with lock := some pid }.goto pid
      (if c.fd = false ∨ c.roleNull = true ∨ c.promptNull = true then .leaving
        else .wants (requestLine pid c.role c.prompt) (some c)))
  else none

/-- `acquiresleep(&cons_write_lock)`. -/
def beginStep (s : FrameState) (pid : Nat) (line : List UInt8) (call : Option CallArgs) :
    Option FrameState :=
  if s.writer = none then
    let blocks := if call.isSome then s.blocks ++ [.mk pid s.out.length line] else s.blocks
    some ({ s with writer := some pid, blocks := blocks }.goto pid (.writing line call))
  else none

/-- One byte of `uartwrite`. The host has a request when its last byte is out. -/
def putStep (s : FrameState) (pid : Nat) (b : UInt8) (left : List UInt8) (call : Option CallArgs) :
    FrameState :=
  { s with
    out := s.out ++ [b]
    owed := if left = [] ∧ call.isSome then s.owed ++ [pid] else s.owed }.goto pid
      (.writing left call)

/-- `releasesleep`, and for a request the tests of `proxy_recv`. -/
def finishStep (s : FrameState) (pid : Nat) (call : Option CallArgs) : FrameState :=
  { s with writer := none }.goto pid
    (match call with
    | none => .idle
    | some c => if c.outNull = true ∨ c.outmax ≤ 0 then .leaving else .receiving [])

/-- The next `read` of `proxy_recv`; `none` while it has to wait. -/
def readStep (s : FrameState) (pid : Nat) (line : List UInt8) : Option FrameState :=
  let r := consoleread s.cons 1
  if r.asleep = true ∨ s.echo ≠ [] then none
  else
    match r.bytes with
    | [] => some ({ s with cons := r.cons }.goto pid .leaving)
    | c :: _ =>
      match recvByte pid line c with
      | .more line => some ({ s with cons := r.cons }.goto pid (.receiving line))
      | .done _ => some ({ s with cons := r.cons }.goto pid .leaving)

/-- The next step of a process; `none` if it is in no call or has to wait. -/
def frameAgent (s : FrameState) (pid : Nat) : Option FrameState :=
  match s.pc pid with
  | .idle => none
  | .locking c => lockStep s pid c
  | .wants line call => beginStep s pid line call
  | .writing (b :: left) call => some (putStep s pid b left call)
  | .writing [] call => some (finishStep s pid call)
  | .receiving line => readStep s pid line
  | .leaving => some ({ s with lock := if s.lock = some pid then none else s.lock }.goto pid .idle)

inductive FrameOp where
  | emit (pid : Nat) (line : List UInt8)
  | call (pid : Nat) (c : CallArgs) (hit : Bool)
  | agent (pid : Nat)
  | reply (text : List UInt8)
  | arrive
  | echo

/-- The system. A call the cache answers writes the marker of a hit and nothing else. -/
def frameNext (s : FrameState) : FrameOp → Option FrameState
  | .emit pid line =>
    match s.pc pid with
    | .idle => some (s.goto pid (.wants line none))
    | _ => none
  | .call pid c hit =>
    match s.pc pid with
    | .idle =>
      if hit then
        if c.fd then
          some (s.goto pid (.wants (cacheHitLine (if c.roleNull then none else c.role)) none))
        else some s
      else some (s.goto pid (.locking c))
    | _ => none
  | .agent pid => frameAgent s pid
  | .reply text =>
    match s.owed with
    | [] => none
    | pid :: owed => some { s with owed := owed, wire := s.wire ++ responseLine (decimal pid) text }
  | .arrive =>
    match s.wire, s.echo with
    | c :: wire, [] =>
      let r := consoleintr [] s.cons c
      some { s with cons := r.1, echo := r.2, wire := wire }
    | _, _ => none
  | .echo =>
    match s.echo with
    | [] => none
    | b :: echo => some { s with out := s.out ++ [b], echo := echo }

/-- The transitions that move no byte, one constructor for each way through a step. -/
inductive ControlStep : FrameState → FrameOp → FrameState → Prop
  | emit {s pid line} (pc : s.pc pid = .idle) :
      ControlStep s (.emit pid line) (s.goto pid (.wants line none))
  | hit {s pid c} (pc : s.pc pid = .idle) : ControlStep s (.call pid c true)
      (s.goto pid (.wants (cacheHitLine (if c.roleNull then none else c.role)) none))
  | hitClosed {s pid c} : ControlStep s (.call pid c true) s
  | miss {s pid c} (pc : s.pc pid = .idle) :
      ControlStep s (.call pid c false) (s.goto pid (.locking c))
  | lock {s pid c} (pc : s.pc pid = .locking c) (free : s.lock = none) :
      ControlStep s (.agent pid)
        ({ s with lock := some pid }.goto pid (.wants (requestLine pid c.role c.prompt) (some c)))
  | refuse {s pid c} (pc : s.pc pid = .locking c) (free : s.lock = none) :
      ControlStep s (.agent pid) ({ s with lock := some pid }.goto pid .leaving)
  | beginLine {s pid line} (pc : s.pc pid = .wants line none) (free : s.writer = none) :
      ControlStep s (.agent pid) ({ s with writer := some pid }.goto pid (.writing line none))
  | beginRequest {s pid line c} (pc : s.pc pid = .wants line (some c)) (free : s.writer = none) :
      ControlStep s (.agent pid) ({ s with
        writer := some pid
        blocks := s.blocks ++ [Block.mk pid s.out.length line] }.goto pid (.writing line (some c)))
  | finishLine {s pid} (pc : s.pc pid = .writing [] none) :
      ControlStep s (.agent pid) ({ s with writer := none }.goto pid .idle)
  | finishRequest {s pid c} (pc : s.pc pid = .writing [] (some c)) :
      ControlStep s (.agent pid) ({ s with writer := none }.goto pid (.receiving []))
  | finishUnread {s pid c} (pc : s.pc pid = .writing [] (some c))
      (unusable : c.outNull = true ∨ c.outmax ≤ 0) :
      ControlStep s (.agent pid) ({ s with writer := none }.goto pid .leaving)
  | leave {s pid} (pc : s.pc pid = .leaving) : ControlStep s (.agent pid)
      ({ s with lock := if s.lock = some pid then none else s.lock }.goto pid .idle)

/-- The transitions that move bytes. -/
inductive TransferStep : FrameState → FrameOp → FrameState → Prop
  | put {s pid b left call} (pc : s.pc pid = .writing (b :: left) call)
      (more : left ≠ [] ∨ call = none) :
      TransferStep s (.agent pid) ({ s with out := s.out ++ [b] }.goto pid (.writing left call))
  | putLast {s pid b c} (pc : s.pc pid = .writing [b] (some c)) :
      TransferStep s (.agent pid)
        ({ s with out := s.out ++ [b], owed := s.owed ++ [pid] }.goto pid (.writing [] (some c)))
  | eof {s pid line} (pc : s.pc pid = .receiving line) (ready : s.cons.r < s.cons.w)
      (free : s.echo = []) (eof : s.cons.buf (cell s.cons.r) = control 'D') :
      TransferStep s (.agent pid) ({ s with cons := s.cons.advance ready }.goto pid .leaving)
  | more {s pid line line'} (pc : s.pc pid = .receiving line) (ready : s.cons.r < s.cons.w)
      (free : s.echo = []) :
      TransferStep s (.agent pid)
        ({ s with cons := s.cons.advance ready }.goto pid (.receiving line'))
  | done {s pid line} (pc : s.pc pid = .receiving line) (ready : s.cons.r < s.cons.w)
      (free : s.echo = []) (ended : s.cons.buf (cell s.cons.r) = newline) :
      TransferStep s (.agent pid) ({ s with cons := s.cons.advance ready }.goto pid .leaving)
  | reply {s text pid owed} (first : s.owed = pid :: owed) : TransferStep s (.reply text)
      { s with owed := owed, wire := s.wire ++ responseLine (decimal pid) text }
  | arrive {s c wire} (first : s.wire = c :: wire) (free : s.echo = []) : TransferStep s .arrive
      { s with
        cons := (consoleintr [] s.cons c).1
        echo := (consoleintr [] s.cons c).2
        wire := wire }
  | echo {s b echo} (first : s.echo = b :: echo) :
      TransferStep s .echo { s with out := s.out ++ [b], echo := echo }

theorem readStep_cases {s t : FrameState} {pid : Nat} {line : List UInt8}
    (pc : s.pc pid = .receiving line) (h : readStep s pid line = some t) :
    TransferStep s (.agent pid) t := by
  simp only [readStep, consoleread_one] at h
  by_cases hr : s.cons.r < s.cons.w
  · rw [dif_pos hr] at h
    by_cases heof : s.cons.buf (cell s.cons.r) = control 'D'
    · rw [if_pos heof] at h
      split at h
      · cases h
      next hfree =>
        obtain rfl := Option.some.inj h
        exact .eof pc hr (by simpa using hfree) heof
    · rw [if_neg heof] at h
      split at h
      · cases h
      next hfree =>
        have hecho : s.echo = [] := by simpa using hfree
        dsimp only at h
        split at h
        · obtain rfl := Option.some.inj h
          exact .more pc hr hecho
        next hdone =>
          obtain rfl := Option.some.inj h
          refine .done pc hr hecho ?_
          -- only a newline makes `proxy_recv` return
          by_contra hc
          rw [recvByte, if_pos hc] at hdone
          cases hdone
  · rw [dif_neg hr, if_pos (.inl rfl)] at h
    cases h

theorem frameAgent_cases {s t : FrameState} {pid : Nat} (h : frameAgent s pid = some t) :
    ControlStep s (.agent pid) t ∨ TransferStep s (.agent pid) t := by
  unfold frameAgent at h
  split at h
  case h_1 => cases h
  case h_2 c pc =>
    unfold lockStep at h
    split at h
    next hfree =>
      split at h
      · obtain rfl := Option.some.inj h
        exact .inl (.refuse pc hfree)
      · obtain rfl := Option.some.inj h
        exact .inl (.lock pc hfree)
    next => cases h
  case h_3 line call pc =>
    unfold beginStep at h
    split at h
    next hfree =>
      obtain rfl := Option.some.inj h
      cases call with
      | none => exact .inl (.beginLine pc hfree)
      | some c => exact .inl (.beginRequest pc hfree)
    next => cases h
  case h_4 b left call pc =>
    obtain rfl := Option.some.inj h
    by_cases hlast : left = [] ∧ call.isSome = true
    · obtain ⟨rfl, hcall⟩ := hlast
      obtain ⟨c, rfl⟩ := Option.isSome_iff_exists.mp hcall
      exact .inr (.putLast pc)
    · rw [putStep, if_neg hlast]
      refine .inr (.put pc ?_)
      by_cases hleft : left = []
      · exact .inr (by simpa [hleft] using hlast)
      · exact .inl hleft
  case h_5 call pc =>
    obtain rfl := Option.some.inj h
    cases call with
    | none => exact .inl (.finishLine pc)
    | some c =>
      by_cases hbad : c.outNull = true ∨ c.outmax ≤ 0
      · simp only [finishStep, if_pos hbad]
        exact .inl (.finishUnread pc hbad)
      · simp only [finishStep, if_neg hbad]
        exact .inl (.finishRequest pc)
  case h_6 line pc => exact .inr (readStep_cases pc h)
  case h_7 pc =>
    obtain rfl := Option.some.inj h
    exact .inl (.leave pc)

theorem frameStep_of_next {s t : FrameState} {op : FrameOp} (h : frameNext s op = some t) :
    ControlStep s op t ∨ TransferStep s op t := by
  unfold frameNext at h
  split at h
  · split at h
    next pc =>
      obtain rfl := Option.some.inj h
      exact .inl (.emit pc)
    next => cases h
  · split at h
    next pc =>
      split at h
      next hhit =>
        obtain rfl : _ = true := hhit
        split at h
        · obtain rfl := Option.some.inj h
          exact .inl (.hit pc)
        · obtain rfl := Option.some.inj h
          exact .inl .hitClosed
      next hmiss =>
        obtain rfl := Bool.eq_false_of_not_eq_true hmiss
        obtain rfl := Option.some.inj h
        exact .inl (.miss pc)
    next => cases h
  · exact frameAgent_cases h
  · split at h
    · cases h
    next first =>
      obtain rfl := Option.some.inj h
      exact .inr (.reply first)
  · split at h
    next first free =>
      obtain rfl := Option.some.inj h
      exact .inr (.arrive first free)
    next => cases h
  · split at h
    · cases h
    next first =>
      obtain rfl := Option.some.inj h
      exact .inr (.echo first)

end LiberalOS.Proxy
