import LiberalOS.Agents.Lines
import LiberalOS.Proxy.Crossing
import LiberalOS.Proxy.SharedConsole

/-!
# Request frames on the UART

The echo of a reply may fall into any write but that of a request. A request is written by the
holder of the proxy lock, who asked for nothing yet, and the reply to the request before it has been
echoed to its end when its reader gives up the lock: the end of the line is read last, and echoed
before that. This is lost if the console lets the reader see the end of a line or of the file
earlier.

## Main results

* `requests_never_torn` — no request is torn, whatever the order of the steps, if the replies have
  no byte that the console takes for the end of the line or of the file.
-/
namespace LiberalOS.Proxy
open Foundation Console

/-! ## Intact requests -/

/-- Nothing, or whole lines. -/
def EndsLine (bs : List UInt8) : Prop := bs = [] ∨ bs.getLast? = some newline

instance (bs : List UInt8) : Decidable (EndsLine bs) := instDecidableOr

theorem endsLine_concat (bs : List UInt8) : EndsLine (bs ++ [newline]) := .inr List.getLast?_concat

/-- What is left of the write of a request. -/
def FramePc.requestLeft : FramePc → Option (List UInt8)
  | .writing left (some _) => some left
  | _ => none

/-- The request starts a line and its bytes follow each other: all of them, or those that its write
has got to. -/
def Intact (s : FrameState) (b : Block) : Prop :=
  b.off ≤ s.out.length ∧ EndsLine (s.out.take b.off) ∧
    (b.line <+: s.out.drop b.off ∨
      ∃ left ∈ (s.pc b.pid).requestLeft, s.out.drop b.off ++ left = b.line)

instance (s : FrameState) (b : Block) : Decidable (Intact s b) := instDecidableAnd

/-- A call with room for a result, and a role and a prompt within a line. -/
def OneLineCall (c : CallArgs) : Prop :=
  ¬ (c.outNull = true ∨ c.outmax ≤ 0) ∧ newline ∉ c.role.bytes ∧ newline ∉ c.prompt.bytes

instance (c : CallArgs) : Decidable (OneLineCall c) := instDecidableAnd

/-- The console does not take the byte for the end of a line or of the file. -/
def KeepsLine (c : UInt8) : Prop := c ≠ carriageReturn ∧ c ≠ control 'D'

instance (c : UInt8) : Decidable (KeepsLine c) := instDecidableAnd

/-- The lines that processes write are complete and their calls are usable; a reply has no newline
of its own. -/
def FrameOp.WellFormed : FrameOp → Prop
  | .emit _ line => line.getLast? = some newline
  | .call _ c _ => OneLineCall c
  | .reply text => newline ∉ text
  | .agent _ | .arrive | .echo => True

instance decidableWellFormed : ∀ op : FrameOp, Decidable op.WellFormed
  | .emit _ line => inferInstanceAs (Decidable (line.getLast? = some newline))
  | .call _ c _ => inferInstanceAs (Decidable (OneLineCall c))
  | .reply text => inferInstanceAs (Decidable (newline ∉ text))
  | .agent _ | .arrive | .echo => isTrue trivial

/-- Nor does a reply have a byte that would end the line early. -/
def FrameOp.Allowed : FrameOp → Prop
  | .reply text => newline ∉ text ∧ ∀ c ∈ text, KeepsLine c
  | op => op.WellFormed

instance decidableAllowed : ∀ op : FrameOp, Decidable op.Allowed
  | .reply text => @instDecidableAnd _ _ instDecidableNot (List.decidableBAll KeepsLine text)
  | .emit pid line => decidableWellFormed (.emit pid line)
  | .call pid c hit => decidableWellFormed (.call pid c hit)
  | .agent _ | .arrive | .echo => isTrue trivial

theorem FrameOp.Allowed.wellFormed {op : FrameOp} (h : op.Allowed) : op.WellFormed := by
  cases op with
  | reply text => exact h.1
  | _ => exact h

/-! ## The invariant -/

namespace FramePc

/-- Between `proxylock` and `proxyunlock`. -/
def holdsLock : FramePc → Bool
  | wants _ (some _) | writing _ (some _) | receiving _ | leaving => true
  | _ => false

def isWriting : FramePc → Bool
  | writing .. => true
  | _ => false

/-- In the middle of a write. -/
def midWrite : FramePc → Bool
  | writing (_ :: _) _ => true
  | _ => false

/-- Between the last byte of a request and the end of the reply. -/
def requestOut : FramePc → Bool
  | writing [] (some _) | receiving _ => true
  | _ => false

/-- Writes are of whole lines, those of requests of the line `proxy_send` makes. -/
def Fine (pid : Nat) : FramePc → Prop
  | locking c => OneLineCall c
  | wants line none => line.getLast? = some newline
  | wants line (some c) => OneLineCall c ∧ line = requestLine pid c.role c.prompt
  | writing left none => EndsLine left
  | writing left (some c) => OneLineCall c ∧ EndsLine left
  | _ => True

end FramePc

namespace FrameState

def RequestOut (s : FrameState) : Prop := ∃ p, (s.pc p).requestOut = true

def MidWrite (s : FrameState) : Prop := ∃ p, (s.pc p).midWrite = true

/-- The bytes on their way to the reader. -/
def incoming (s : FrameState) : List UInt8 := s.cons.pending ++ s.wire

end FrameState

/-- The locks are held by those who act as if. -/
structure Orderly (s : FrameState) : Prop where
  lock : ∀ p, (s.pc p).holdsLock = true → s.lock = some p
  writer : ∀ p, (s.pc p).isWriting = true → s.writer = some p
  fine : ∀ p, (s.pc p).Fine p

/-- There is a reply only for the request that is out, and at most one line of it. When the end of
the line is with the console, its echo is all that is left to send. -/
structure Traffic (s : FrameState) : Prop where
  quiet : s.RequestOut ∨ s.owed = [] ∧ s.incoming = [] ∧ s.echo = []
  oneLine : newline ∉ s.incoming.dropLast
  plain : ∀ c ∈ s.incoming, KeepsLine c
  owed : s.owed = [] ∨ s.owed.length = 1 ∧ s.incoming = [] ∧ s.echo = []
  ended : newline ∈ s.cons.pending → s.echo = [] ∨ s.echo = [newline]

/-- Outside of writes the output is at the start of a line, unless part of a reply is still to be
echoed. -/
def LineStart (s : FrameState) : Prop :=
  s.MidWrite ∨ EndsLine s.out ∨ s.RequestOut ∧ (newline ∈ s.cons.pending → s.echo ≠ [])

/-- The line is the one of a call. -/
def Block.IsRequest (b : Block) : Prop :=
  ∃ c, OneLineCall c ∧ b.line = requestLine b.pid c.role c.prompt

structure FrameInv (s : FrameState) : Prop extends Orderly s, Traffic s where
  lineStart : LineStart s
  intact : ∀ b ∈ s.blocks, Intact s b
  requests : ∀ b ∈ s.blocks, b.IsRequest

theorem forall_goto {s : FrameState} {pid : Nat} {pc : FramePc} {P : Nat → FramePc → Prop}
    (h : ∀ p, p ≠ pid → P p (s.pc p)) (hpid : P pid pc) : ∀ p, P p ((s.goto pid pc).pc p) := by
  intro p
  by_cases hp : p = pid
  · subst hp
    simpa [FrameState.goto] using hpid
  · simpa [FrameState.goto, hp] using h p hp

/-! ## The locks -/

theorem Orderly.lock_unique {s : FrameState} (h : Orderly s) {p q : Nat}
    (hp : (s.pc p).holdsLock = true) (hq : (s.pc q).holdsLock = true) : p = q :=
  Option.some.inj ((h.lock p hp).symm.trans (h.lock q hq))

theorem Orderly.writer_unique {s : FrameState} (h : Orderly s) {p q : Nat}
    (hp : (s.pc p).isWriting = true) (hq : (s.pc q).isWriting = true) : p = q :=
  Option.some.inj ((h.writer p hp).symm.trans (h.writer q hq))

theorem FramePc.holdsLock_of_requestOut {pc : FramePc} (h : pc.requestOut = true) :
    pc.holdsLock = true := by
  unfold requestOut at h
  split at h <;> first | rfl | cases h

theorem FramePc.isWriting_of_midWrite {pc : FramePc} (h : pc.midWrite = true) :
    pc.isWriting = true := by
  unfold midWrite at h
  split at h <;> first | rfl | cases h

section
variable {s : FrameState} (h : Orderly s) {pid : Nat} {q : FramePc} (pc : s.pc pid = q)
include h pc

theorem Orderly.fine_at : q.Fine pid := pc ▸ h.fine pid

theorem Orderly.lock_at (hq : q.holdsLock = true) : s.lock = some pid := h.lock pid (pc ▸ hq)

theorem Orderly.writer_at (hq : q.isWriting = true) : s.writer = some pid := h.writer pid (pc ▸ hq)

/-- A process that holds the lock is the only one a reply can be for. -/
theorem Orderly.not_requestOut (hq : q.holdsLock = true) (hout : q.requestOut = false) :
    ¬ s.RequestOut := by
  rintro ⟨p, hp⟩
  obtain rfl := h.lock_unique (pc ▸ hq) (FramePc.holdsLock_of_requestOut hp)
  rw [pc, hout] at hp
  cases hp

end

theorem Orderly.goto {s : FrameState} (h : Orderly s) {pid : Nat} {q : FramePc}
    (hlock : q.holdsLock = true → s.lock = some pid)
    (hwriter : q.isWriting = true → s.writer = some pid) (hfine : q.Fine pid) :
    Orderly (s.goto pid q) where
  lock := forall_goto (P := fun p pc => pc.holdsLock = true → s.lock = some p)
    (fun p _ => h.lock p) hlock
  writer := forall_goto (P := fun p pc => pc.isWriting = true → s.writer = some p)
    (fun p _ => h.writer p) hwriter
  fine := forall_goto (P := fun p pc => pc.Fine p) (fun p _ => h.fine p) hfine

/-- A write that is over gives up the lock for writes. -/
theorem Orderly.finish {s : FrameState} (h : Orderly s) {pid : Nat} {pc : FramePc}
    (hpid : (s.pc pid).isWriting = true) (hlock : pc.holdsLock = true → s.lock = some pid)
    (hwriter : pc.isWriting = false) (hfine : pc.Fine pid) :
    Orderly ({ s with writer := none }.goto pid pc) where
  lock := forall_goto (P := fun p pc => pc.holdsLock = true → s.lock = some p)
    (fun p _ => h.lock p) hlock
  writer := by
    refine forall_goto (P := fun p pc => pc.isWriting = true → none = some p) ?_ ?_
    · intro p hp hwrites
      exact absurd (h.writer_unique hwrites hpid) hp
    · rw [hwriter]
      exact fun h => nomatch h
  fine := forall_goto (P := fun p pc => pc.Fine p) (fun p _ => h.fine p) hfine

/-- Leaving gives up the proxy lock. -/
theorem Orderly.leave {s : FrameState} (h : Orderly s) {pid : Nat} (hpid : s.pc pid = .leaving) :
    Orderly ({ s with lock := if s.lock = some pid then none else s.lock }.goto pid .idle) where
  lock := by
    refine forall_goto (P := fun p pc => pc.holdsLock = true →
      (if s.lock = some pid then none else s.lock) = some p) ?_ (fun h => nomatch h)
    intro p hp hholds
    exact absurd (h.lock_unique hholds (hpid ▸ rfl)) hp
  writer := forall_goto (P := fun p pc => pc.isWriting = true → s.writer = some p)
    (fun p _ => h.writer p) (fun h => nomatch h)
  fine := forall_goto (P := fun p pc => pc.Fine p) (fun p _ => h.fine p) trivial

theorem endsLine_of_cons {b : UInt8} {left : List UInt8} (h : EndsLine (b :: left)) :
    EndsLine left := by
  cases left with
  | nil => exact .inl rfl
  | cons c left => exact .inr (by simpa [EndsLine] using h)

theorem FramePc.Fine.tail {pid : Nat} {b : UInt8} {left : List UInt8} {call : Option CallArgs}
    (h : (FramePc.writing (b :: left) call).Fine pid) :
    (FramePc.writing left call).Fine pid := by
  cases call with
  | none => exact endsLine_of_cons h
  | some c => exact ⟨h.1, endsLine_of_cons h.2⟩

/-- Only the program counters and the locks matter. -/
theorem Orderly.of_eq {s t : FrameState} (h : Orderly s) (hpc : t.pc = s.pc)
    (hlock : t.lock = s.lock) (hwriter : t.writer = s.writer) : Orderly t where
  lock := by rw [hpc, hlock]; exact h.lock
  writer := by rw [hpc, hwriter]; exact h.writer
  fine := by rw [hpc]; exact h.fine

theorem Orderly.takeLock {s : FrameState} (h : Orderly s) (free : s.lock = none) (pid : Nat) :
    Orderly { s with lock := some pid } where
  lock p hp := absurd ((h.lock p hp).symm.trans free) (by simp)
  writer := h.writer
  fine := h.fine

theorem Orderly.takeWriter {s : FrameState} (h : Orderly s) (free : s.writer = none) (pid : Nat) :
    Orderly { s with writer := some pid } where
  lock := h.lock
  writer p hp := absurd ((h.writer p hp).symm.trans free) (by simp)
  fine := h.fine

/-- The text of a request line, as far as it fits the buffer. -/
theorem requestLine_eq_concat (pid : Nat) (role prompt : CString) :
    ∃ text, requestLine pid role prompt = text ++ [newline] ∧ proxyReqTag ++ [tab] <+: text ∧
      (newline ∉ role.bytes → newline ∉ prompt.bytes → newline ∉ text) := by
  have hhead : proxyAppendStr 640 [] proxyReqTag = proxyReqTag := by decide
  have hint : ∀ buf, proxyAppendInt buf pid = buf ++ decimal pid := by simp [proxyAppendInt]
  simp only [requestLine, hhead, hint]
  refine ⟨_, rfl, ?_, fun hrole hprompt => ?_⟩
  · simp only [proxyAppendStr, List.append_assoc]
    rw [← List.append_assoc]
    exact List.prefix_append _ _
  · have htag : newline ∉ proxyReqTag := by decide
    have htab : newline ≠ tab := by decide
    have htake : ∀ {n} {str : CString}, newline ∉ str.bytes → newline ∉ str.bytes.take n :=
      fun h hmem => h (List.mem_of_mem_take hmem)
    simp [proxyAppendStr, htag, htab, newline_not_mem_decimal, htake hrole, htake hprompt]

/-- A byte of a write. -/
theorem Orderly.put {s : FrameState} (h : Orderly s) {pid : Nat} {b : UInt8} {left : List UInt8}
    {call : Option CallArgs} (pc : s.pc pid = .writing (b :: left) call) :
    Orderly (s.goto pid (.writing left call)) := by
  apply h.goto
  · intro hlock
    exact h.lock_at pc (by cases call <;> exact hlock)
  · exact fun _ => h.writer_at pc rfl
  · exact (h.fine_at pc).tail

/-- A read leaves the process in `proxy_recv`, or in front of `proxyunlock`. -/
theorem Orderly.read {s : FrameState} (h : Orderly s) {pid : Nat} {line : List UInt8}
    (pc : s.pc pid = .receiving line) {q : FramePc} (hwrites : q.isWriting = false)
    (hfine : q.Fine pid) : Orderly (s.goto pid q) := by
  apply h.goto
  · exact fun _ => h.lock_at pc rfl
  · rw [hwrites]
    exact fun h => nomatch h
  · exact hfine

theorem Orderly.controlStep {s t : FrameState} {op : FrameOp} (h : Orderly s) (hop : op.WellFormed)
    (hstep : ControlStep s op t) : Orderly t := by
  cases hstep with
  | emit pc => exact h.goto (fun h => nomatch h) (fun h => nomatch h) hop
  | hit pc => exact h.goto (fun h => nomatch h) (fun h => nomatch h) List.getLast?_concat
  | hitClosed => exact h
  | miss pc => exact h.goto (fun h => nomatch h) (fun h => nomatch h) hop
  | @lock pid c pc free =>
    have hcall : OneLineCall c := h.fine_at pc
    exact (h.takeLock free pid).goto (fun _ => rfl) (fun h => nomatch h) ⟨hcall, rfl⟩
  | refuse pc free => exact (h.takeLock free _).goto (fun _ => rfl) (fun h => nomatch h) trivial
  | @beginLine pid line pc free =>
    have hline : line.getLast? = some newline := h.fine_at pc
    exact (h.takeWriter free pid).goto (fun h => nomatch h) (fun _ => rfl) (.inr hline)
  | @beginRequest pid line c pc free =>
    obtain ⟨hcall, rfl⟩ := h.fine_at pc
    obtain ⟨text, htext, -, -⟩ := requestLine_eq_concat pid c.role c.prompt
    have hends : EndsLine (requestLine pid c.role c.prompt) := by
      rw [htext]
      exact endsLine_concat text
    have hbegun := (h.takeWriter free pid).goto
      (q := .writing (requestLine pid c.role c.prompt) (some c)) (fun _ => h.lock_at pc rfl)
      (fun _ => rfl) ⟨hcall, hends⟩
    exact hbegun.of_eq rfl rfl rfl
  | finishLine pc => exact h.finish (pc ▸ rfl) (fun h => nomatch h) rfl trivial
  | finishRequest pc | finishUnread pc _ =>
    exact h.finish (pc ▸ rfl) (fun _ => h.lock_at pc rfl) rfl trivial
  | leave pc => exact h.leave pc

theorem Orderly.transferStep {s t : FrameState} {op : FrameOp} (h : Orderly s)
    (hstep : TransferStep s op t) : Orderly t := by
  cases hstep with
  | put pc more => exact (h.put pc).of_eq rfl rfl rfl
  | putLast pc => exact (h.put pc).of_eq rfl rfl rfl
  | eof pc ready free _ | done pc ready free _ =>
    exact (h.read pc (q := .leaving) rfl trivial).of_eq rfl rfl rfl
  | @more pid line line' pc ready free =>
    exact (h.read pc (q := .receiving line') rfl trivial).of_eq rfl rfl rfl
  | reply first => exact h.of_eq rfl rfl rfl
  | arrive first free => exact h.of_eq rfl rfl rfl
  | echo first => exact h.of_eq rfl rfl rfl

/-! ## Steps that move no byte -/

/-- The bytes stay where they are, and with them what the program counters say about them. -/
structure Control (s t : FrameState) : Prop where
  cons : t.cons = s.cons
  echo : t.echo = s.echo
  out : t.out = s.out
  owed : t.owed = s.owed
  wire : t.wire = s.wire
  requestOut : ∀ p, (t.pc p).requestOut = (s.pc p).requestOut
  midWrite : ∀ p, (s.pc p).midWrite = true → (t.pc p).midWrite = true
  requestLeft : ∀ p left, (s.pc p).requestLeft = some left →
    (t.pc p).requestLeft = some left ∨ left = []

/-- A move from `q` to `q'` that leaves the state of the process's own write and request. -/
theorem Control.goto {s : FrameState} {pid : Nat} {q q' : FramePc} (pc : s.pc pid = q)
    (hout : q'.requestOut = q.requestOut) (hmid : q.midWrite = true → q'.midWrite = true)
    (hleft : ∀ left, q.requestLeft = some left → q'.requestLeft = some left ∨ left = []) :
    Control s (s.goto pid q') where
  cons := rfl
  echo := rfl
  out := rfl
  owed := rfl
  wire := rfl
  requestOut := forall_goto (P := fun p q' => q'.requestOut = (s.pc p).requestOut)
    (fun _ _ => rfl) (pc ▸ hout)
  midWrite := forall_goto (P := fun p q' => (s.pc p).midWrite = true → q'.midWrite = true)
    (fun _ _ h => h) (pc ▸ hmid)
  requestLeft := forall_goto (P := fun p q' => ∀ left, (s.pc p).requestLeft = some left →
    q'.requestLeft = some left ∨ left = []) (fun _ _ _ h => .inl h) (pc ▸ hleft)

/-- The locks and the records of blocks have no part in it. -/
theorem Control.of_eq {s t u : FrameState} (h : Control s t) (hcons : u.cons = t.cons)
    (hecho : u.echo = t.echo) (hout : u.out = t.out) (howed : u.owed = t.owed)
    (hwire : u.wire = t.wire) (hpc : u.pc = t.pc) : Control s u where
  cons := hcons.trans h.cons
  echo := hecho.trans h.echo
  out := hout.trans h.out
  owed := howed.trans h.owed
  wire := hwire.trans h.wire
  requestOut := by rw [hpc]; exact h.requestOut
  midWrite := by rw [hpc]; exact h.midWrite
  requestLeft := by rw [hpc]; exact h.requestLeft

theorem control_of_controlStep {s t : FrameState} {op : FrameOp} (h : Orderly s)
    (hstep : ControlStep s op t) : Control s t := by
  cases hstep with
  | emit pc | hit pc | miss pc => exact .goto pc rfl id fun _ h => nomatch h
  | hitClosed => exact ⟨rfl, rfl, rfl, rfl, rfl, fun _ => rfl, fun _ h => h, fun _ _ h => .inl h⟩
  | lock pc free | refuse pc free | leave pc =>
    refine Control.of_eq (.goto pc ?_ ?_ ?_) rfl rfl rfl rfl rfl rfl
    · rfl
    · exact id
    · exact fun _ h => nomatch h
  | @beginLine pid line pc free =>
    have hout : (FramePc.writing line none).requestOut = false := by cases line <;> rfl
    exact (Control.goto pc hout (fun h => nomatch h) fun _ h => nomatch h).of_eq
      rfl rfl rfl rfl rfl rfl
  | @beginRequest pid line c pc free =>
    obtain ⟨-, rfl⟩ := h.fine_at pc
    obtain ⟨text, htext, -, -⟩ := requestLine_eq_concat pid c.role c.prompt
    -- there is a byte to write, so the request is not out
    have hout : (FramePc.writing (requestLine pid c.role c.prompt) (some c)).requestOut =
        false := by
      rw [htext]
      cases text <;> rfl
    exact (Control.goto pc hout (fun h => nomatch h) fun _ h => nomatch h).of_eq
      rfl rfl rfl rfl rfl rfl
  | finishLine pc =>
    refine Control.of_eq (.goto pc ?_ ?_ ?_) rfl rfl rfl rfl rfl rfl
    · rfl
    · exact fun h => nomatch h
    · exact fun _ h => nomatch h
  | finishRequest pc =>
    refine Control.of_eq (.goto pc ?_ ?_ ?_) rfl rfl rfl rfl rfl rfl
    · rfl
    · exact fun h => nomatch h
    · exact fun left hleft => .inr (Option.some.inj hleft).symm
  | finishUnread pc unusable => exact absurd unusable (h.fine_at pc).1.1

/-! ## Replies -/

theorem requestOut_goto_self {s : FrameState} {pid : Nat} {q : FramePc}
    (h : q.requestOut = true) : (s.goto pid q).RequestOut :=
  ⟨pid, by simpa [FrameState.goto] using h⟩

theorem newline_not_mem_dropLast_tail {c : UInt8} {bs : List UInt8}
    (h : newline ∉ (c :: bs).dropLast) : newline ∉ bs.dropLast := by
  cases bs with
  | nil => simp
  | cons b bs => exact fun hmem => h (List.mem_cons_of_mem _ hmem)

theorem newline_not_mem_left {a bs : List UInt8} (hne : bs ≠ [])
    (h : newline ∉ (a ++ bs).dropLast) : newline ∉ a := by
  rw [List.dropLast_append_of_ne_nil hne] at h
  exact fun hmem => h (List.mem_append_left _ hmem)

/-- A line without a part of its inside. -/
theorem newline_not_mem_dropLast_append {a rest bs : List UInt8} {c : UInt8}
    (h : newline ∉ (a ++ (rest ++ c :: bs)).dropLast) : newline ∉ (a ++ bs).dropLast := by
  have ha : newline ∉ a := newline_not_mem_left (by simp) h
  cases bs with
  | nil =>
    rw [List.append_nil]
    exact fun hmem => ha (List.dropLast_subset _ hmem)
  | cons b bs =>
    rw [List.dropLast_append_of_ne_nil (by simp), List.dropLast_append_of_ne_nil (by simp)] at h
    rw [List.dropLast_append_of_ne_nil (by simp)]
    refine List.not_mem_append ha fun hmem => h (List.mem_append_right _ ?_)
    exact List.mem_append_right _ (List.mem_cons_of_mem _ hmem)

/-- A newline at the front of a single line is all of it. -/
theorem eq_nil_of_newline_cons {bs : List UInt8} (h : newline ∉ (newline :: bs).dropLast) :
    bs = [] := by
  cases bs with
  | nil => rfl
  | cons b bs => exact absurd List.mem_cons_self h

theorem responseLine_oneLine (pid : Nat) {text : List UInt8} (h : newline ∉ text) :
    newline ∉ (responseLine (decimal pid) text).dropLast := by
  rw [responseLine_eq_concat, List.dropLast_concat]
  exact newline_not_mem_response (newline_not_mem_decimal pid) h

theorem keepsLine_of_plain {c : UInt8} (h : Plain c) : KeepsLine c := ⟨h.2.2.2.2.2.1, h.2.2.2.2.2.2⟩

theorem keepsLine_responseLine (pid : Nat) {text : List UInt8} (h : ∀ c ∈ text, KeepsLine c) :
    ∀ c ∈ responseLine (decimal pid) text, KeepsLine c := by
  intro c hc
  -- the parts around the text are those of an empty reply
  have hempty := (plainFrame_responseLine pid (fun c hc => nomatch hc : ∀ c ∈ [], Plain c)).plain
  simp only [responseLine, List.mem_append, List.mem_cons, List.not_mem_nil, or_false] at hc hempty
  rcases hc with htag | rfl | hid | rfl | htext | rfl
  · exact keepsLine_of_plain (hempty c (.inl htag))
  · decide
  · exact keepsLine_of_plain (hempty c (.inr (.inr (.inl hid))))
  · decide
  · exact h c htext
  · decide

theorem Traffic.control {s t : FrameState} (h : Traffic s) (hcontrol : Control s t) :
    Traffic t := by
  have hincoming : t.incoming = s.incoming := by
    rw [FrameState.incoming, hcontrol.cons, hcontrol.wire]
    rfl
  refine ⟨?_, hincoming ▸ h.oneLine, hincoming ▸ h.plain, ?_, ?_⟩
  · rw [hincoming, hcontrol.owed, hcontrol.echo]
    refine h.quiet.imp_left fun ⟨p, hp⟩ => ⟨p, ?_⟩
    rw [hcontrol.requestOut, hp]
  · rw [hincoming, hcontrol.owed, hcontrol.echo]
    exact h.owed
  · rw [hcontrol.cons, hcontrol.echo]
    exact h.ended

/-- The byte a reader gets is the first one on its way. -/
theorem incoming_eq_cons {s : FrameState} (ready : s.cons.r < s.cons.w) :
    s.incoming = s.cons.buf (cell s.cons.r) ::
      ((s.cons.advance ready).pending ++ s.wire) := by
  rw [FrameState.incoming, Cons.pending_eq_cons ready]
  rfl

theorem Traffic.owed_eq_nil {s : FrameState} (h : Traffic s)
    (hne : s.incoming ≠ [] ∨ s.echo ≠ []) : s.owed = [] :=
  h.owed.resolve_right fun howed => hne.elim (· howed.2.1) (· howed.2.2)

theorem Traffic.requestOut {s : FrameState} (h : Traffic s)
    (hne : s.incoming ≠ [] ∨ s.echo ≠ []) : s.RequestOut :=
  h.quiet.resolve_right fun hquiet => hne.elim (· hquiet.2.1) (· hquiet.2.2)

/-- A reader does not find the end of the file. -/
theorem Traffic.not_eof {s : FrameState} (h : Traffic s) (ready : s.cons.r < s.cons.w) :
    s.cons.buf (cell s.cons.r) ≠ Console.control 'D' :=
  (h.plain _ (by rw [incoming_eq_cons ready]; exact List.mem_cons_self)).2

/-- A reader takes the first byte. -/
theorem Traffic.read {s : FrameState} (h : Traffic s) (ready : s.cons.r < s.cons.w)
    (free : s.echo = []) {pid : Nat} {q : FramePc} (hq : q.requestOut = true ∨
      s.cons.buf (cell s.cons.r) = newline) :
    Traffic ({ s with cons := s.cons.advance ready }.goto pid q) := by
  have hincoming := incoming_eq_cons ready
  have howed : s.owed = [] := h.owed_eq_nil (.inl (by simp [hincoming]))
  have honeLine := h.oneLine
  have hplain := h.plain
  rw [hincoming] at honeLine hplain
  refine ⟨?_, newline_not_mem_dropLast_tail honeLine,
    fun c hc => hplain c (List.mem_cons_of_mem _ hc), .inl howed, fun _ => .inl free⟩
  rcases hq with hq | hnewline
  · exact .inl (requestOut_goto_self hq)
  · rw [hnewline] at honeLine
    exact .inr ⟨howed, eq_nil_of_newline_cons honeLine, free⟩

/-- What a byte that arrives does: it is stored and echoed, or nothing is added. -/
theorem Traffic.arrive_cases {s : FrameState} (h : Traffic s) {c : UInt8} {wire : List UInt8}
    (first : s.wire = c :: wire) :
    (∃ hroom, consoleintr [] s.cons c = (s.cons.store c hroom, [c])) ∨
      (consoleintr [] s.cons c).1.pending <+: s.cons.pending :=
  consoleintr_cases [] s.cons (h.plain c (by simp [FrameState.incoming, first])).1

theorem incoming_ne_nil {s : FrameState} {c : UInt8} {wire : List UInt8}
    (first : s.wire = c :: wire) : s.incoming ≠ [] := by
  simp [FrameState.incoming, first]

/-- A byte that arrives leaves the line as it is, or without a part of it. -/
theorem Traffic.arrive {s : FrameState} (h : Traffic s) {c : UInt8} {wire : List UInt8}
    (first : s.wire = c :: wire) : Traffic { s with
      cons := (consoleintr [] s.cons c).1
      echo := (consoleintr [] s.cons c).2
      wire := wire } := by
  have hne : s.incoming ≠ [] ∨ s.echo ≠ [] := .inl (incoming_ne_nil first)
  have honeLine := h.oneLine
  have hplain := h.plain
  rw [FrameState.incoming, first] at honeLine hplain
  have hpending : newline ∉ s.cons.pending := newline_not_mem_left (by simp) honeLine
  rcases h.arrive_cases first with ⟨hroom, hr⟩ | hr
  · rw [hr]
    have heq : FrameState.incoming { s with
        cons := s.cons.store c hroom, echo := [c], wire := wire } =
        s.cons.pending ++ c :: wire := by
      simp [FrameState.incoming]
    refine ⟨.inl (h.requestOut hne), heq ▸ honeLine, heq ▸ hplain, .inl (h.owed_eq_nil hne), ?_⟩
    intro hmem
    rw [Cons.pending_store] at hmem
    have hc := (List.mem_append.mp hmem).resolve_left hpending
    rw [List.mem_singleton.mp hc]
    exact .inr rfl
  · have hnone : newline ∉ (consoleintr [] s.cons c).1.pending := fun hmem =>
      hpending (hr.subset hmem)
    obtain ⟨rest, hrest⟩ := hr
    rw [← hrest, List.append_assoc] at honeLine hplain
    refine ⟨.inl (h.requestOut hne), newline_not_mem_dropLast_append honeLine, ?_,
      .inl (h.owed_eq_nil hne), fun hmem => absurd hmem hnone⟩
    intro b hb
    apply hplain b
    grind [FrameState.incoming]

/-- The reply to the request that is out. -/
theorem Traffic.reply {s : FrameState} (h : Traffic s) {pid : Nat} {owed : List Nat}
    {text : List UInt8} (first : s.owed = pid :: owed) (htext : newline ∉ text)
    (hkeeps : ∀ c ∈ text, KeepsLine c) :
    Traffic { s with owed := owed, wire := s.wire ++ responseLine (decimal pid) text } := by
  obtain ⟨hone, hincoming, hecho⟩ := h.owed.resolve_left (by simp [first])
  have howed : owed = [] := by
    rw [first] at hone
    exact List.eq_nil_of_length_eq_zero (by simpa using hone)
  have hout : s.RequestOut := h.quiet.resolve_right fun hquiet => by
    rw [hquiet.1] at first
    cases first
  obtain ⟨hpending, hwire⟩ := List.append_eq_nil_iff.mp hincoming
  have heq : FrameState.incoming { s with
      owed := owed, wire := s.wire ++ responseLine (decimal pid) text } =
      responseLine (decimal pid) text := by
    simp [FrameState.incoming, hpending, hwire]
  refine ⟨.inl hout, ?_, ?_, .inl howed, fun _ => .inl hecho⟩
  · rw [heq]
    exact responseLine_oneLine pid htext
  · rw [heq]
    exact keepsLine_responseLine pid hkeeps

theorem Traffic.transferStep {s t : FrameState} {op : FrameOp} (horderly : Orderly s)
    (h : Traffic s) (hop : op.Allowed) (hstep : TransferStep s op t) : Traffic t := by
  cases hstep with
  | @put pid b left call pc more =>
    refine ⟨h.quiet.imp_left fun ⟨p, hp⟩ => ⟨p, ?_⟩, h.oneLine, h.plain, h.owed, h.ended⟩
    have hne : p ≠ pid := by
      rintro rfl
      rw [pc] at hp
      cases hp
    simpa [FrameState.goto, hne] using hp
  | @putLast pid b c pc =>
    -- until now no request was out, so nothing is on its way
    have hout := horderly.not_requestOut pc rfl rfl
    obtain ⟨howed, hrest⟩ := h.quiet.resolve_left hout
    refine ⟨.inl (requestOut_goto_self rfl), h.oneLine, h.plain, .inr ⟨?_, hrest⟩, h.ended⟩
    simp [FrameState.goto, howed]
  | eof pc ready free eof => exact absurd eof (h.not_eof ready)
  | more pc ready free => exact h.read ready free (.inl rfl)
  | done pc ready free ended => exact h.read ready free (.inr ended)
  | @reply text pid owed first => exact h.reply first hop.1 hop.2
  | arrive first free => exact h.arrive first
  | @echo b echo first =>
    have hne : s.incoming ≠ [] ∨ s.echo ≠ [] := .inr (by simp [first])
    refine ⟨.inl (h.requestOut hne), h.oneLine, h.plain, .inl (h.owed_eq_nil hne), fun hmem => ?_⟩
    rcases h.ended hmem with hnil | hone
    · rw [hnil] at first
      cases first
    · rw [hone] at first
      exact .inl (List.cons.inj first).2.symm

/-! ## Line starts -/

theorem midWrite_goto {s : FrameState} (h : s.MidWrite) {pid : Nat} {q : FramePc}
    (hq : (s.pc pid).midWrite = true → q.midWrite = true) : (s.goto pid q).MidWrite := by
  obtain ⟨p, hp⟩ := h
  refine ⟨p, ?_⟩
  exact forall_goto (P := fun p q => (s.pc p).midWrite = true → q.midWrite = true)
    (fun _ _ h => h) hq p hp

theorem LineStart.control {s t : FrameState} (h : LineStart s) (hcontrol : Control s t) :
    LineStart t := by
  rcases h with ⟨p, hp⟩ | hline | ⟨⟨p, hp⟩, hecho⟩
  · exact .inl ⟨p, hcontrol.midWrite p hp⟩
  · exact .inr (.inl (hcontrol.out ▸ hline))
  · rw [← hcontrol.cons, ← hcontrol.echo] at hecho
    refine .inr (.inr ⟨⟨p, ?_⟩, hecho⟩)
    rw [hcontrol.requestOut, hp]

/-- A write ends with a newline. -/
theorem last_eq_newline {pid : Nat} {b : UInt8} {call : Option CallArgs}
    (h : (FramePc.writing [b] call).Fine pid) : b = newline := by
  have hends : EndsLine [b] := by
    cases call with
    | none => exact h
    | some c => exact h.2
  simpa [EndsLine] using hends

/-- Reading leaves the output alone; what is read of a reply that was not complete leaves it so. -/
theorem LineStart.read {s : FrameState} (h : LineStart s) (ready : s.cons.r < s.cons.w)
    (free : s.echo = []) {pid : Nat} {line : List UInt8} (pc : s.pc pid = .receiving line)
    {q : FramePc}
    (hq : q.requestOut = true ∨ s.cons.buf (cell s.cons.r) = newline) :
    LineStart ({ s with cons := s.cons.advance ready }.goto pid q) := by
  have hpending := Cons.pending_eq_cons ready
  rcases h with hmid | hline | ⟨-, hecho⟩
  · refine .inl (midWrite_goto (s := { s with cons := s.cons.advance ready }) hmid ?_)
    change (s.pc pid).midWrite = true → _
    rw [pc]
    exact fun h => nomatch h
  · exact .inr (.inl hline)
  · have hnone : newline ∉ s.cons.pending := fun hmem => hecho hmem free
    rw [hpending] at hnone
    rcases hq with hq | hnewline
    · exact .inr (.inr ⟨requestOut_goto_self hq,
        fun hmem => absurd (List.mem_cons_of_mem _ hmem) hnone⟩)
    · rw [hnewline] at hnone
      exact absurd List.mem_cons_self hnone

theorem LineStart.transferStep {s t : FrameState} {op : FrameOp} (horderly : Orderly s)
    (htraffic : Traffic s) (h : LineStart s) (hstep : TransferStep s op t) : LineStart t := by
  cases hstep with
  | @put pid b left call pc more =>
    cases left with
    | cons c left => exact .inl ⟨pid, by simp [FrameState.goto, FramePc.midWrite]⟩
    | nil =>
      obtain rfl := last_eq_newline (horderly.fine_at pc)
      exact .inr (.inl (endsLine_concat _))
  | putLast pc =>
    obtain rfl := last_eq_newline (horderly.fine_at pc)
    exact .inr (.inl (endsLine_concat _))
  | eof pc ready free eof => exact absurd eof (htraffic.not_eof ready)
  | more pc ready free => exact h.read ready free pc (.inl rfl)
  | done pc ready free ended => exact h.read ready free pc (.inr ended)
  | reply first => exact h
  | @arrive c wire first free =>
    have hne : s.incoming ≠ [] ∨ s.echo ≠ [] := .inl (incoming_ne_nil first)
    have honeLine := htraffic.oneLine
    rw [FrameState.incoming, first] at honeLine
    have hpending : newline ∉ s.cons.pending := newline_not_mem_left (by simp) honeLine
    refine .inr (.inr ⟨htraffic.requestOut hne, fun hmem => ?_⟩)
    -- the newline is the byte that has come, and is still to be echoed
    rcases htraffic.arrive_cases first with ⟨hroom, hr⟩ | hr
    · rw [hr]
      simp
    · exact absurd (hr.subset hmem) hpending
  | @echo b echo first =>
    have hne : s.incoming ≠ [] ∨ s.echo ≠ [] := .inr (by simp [first])
    by_cases hmem : newline ∈ s.cons.pending
    · -- the echo of the newline ends the line
      have hone := (htraffic.ended hmem).resolve_left (by simp [first])
      rw [first] at hone
      obtain ⟨rfl, -⟩ := List.cons.inj hone
      exact .inr (.inl (endsLine_concat _))
    · exact .inr (.inr ⟨htraffic.requestOut hne, fun h => absurd h hmem⟩)

/-! ## Blocks -/

/-- Output behind a whole request leaves it whole. -/
theorem prefix_drop_append {line out : List UInt8} {off : Nat} (hoff : off ≤ out.length)
    (h : line <+: out.drop off) (bs : List UInt8) : line <+: (out ++ bs).drop off := by
  rw [List.drop_append_of_le_length hoff]
  exact h.trans (List.prefix_append _ _)

/-- A block whose write is over, after more output. -/
theorem intact_append {s t : FrameState} {b : Block} {bs : List UInt8}
    (hout : t.out = s.out ++ bs) (hoff : b.off ≤ s.out.length)
    (hline : EndsLine (s.out.take b.off)) (hwhole : b.line <+: s.out.drop b.off) : Intact t b := by
  rw [Intact, hout]
  refine ⟨by simp; omega, ?_, .inl (prefix_drop_append hoff hwhole bs)⟩
  rwa [List.take_append_of_le_length hoff]

/-- The output stays, and so does the rest of a write that is going on. -/
theorem Intact.keep {s t : FrameState} {b : Block} (h : Intact s b) (hout : t.out = s.out)
    (hleft : ∀ left, (s.pc b.pid).requestLeft = some left →
      (t.pc b.pid).requestLeft = some left ∨ left = []) : Intact t b := by
  obtain ⟨hoff, hline, hwhole | ⟨left, hsome, heq⟩⟩ := h
  · exact ⟨hout ▸ hoff, hout ▸ hline, .inl (hout ▸ hwhole)⟩
  · refine ⟨hout ▸ hoff, hout ▸ hline, ?_⟩
    rw [hout]
    rcases hleft left hsome with hleft | rfl
    · exact .inr ⟨left, hleft, heq⟩
    · rw [List.append_nil] at heq
      exact .inl (heq ▸ List.prefix_rfl)

theorem FramePc.requestLeft_eq_some {pc : FramePc} {left : List UInt8}
    (h : pc.requestLeft = some left) : ∃ c, pc = .writing left (some c) := by
  unfold requestLeft at h
  split at h
  next left' c => exact ⟨c, by rw [Option.some.inj h]⟩
  next => cases h

/-- A byte of a write: blocks that are complete stay so, and the byte is the next one of a block
that is not. -/
theorem Intact.put {s t : FrameState} {b : Block} (horderly : Orderly s) (h : Intact s b)
    {pid : Nat} {c : UInt8} {left : List UInt8} {call : Option CallArgs}
    (pc : s.pc pid = .writing (c :: left) call) (hout : t.out = s.out ++ [c])
    (hpc : t.pc pid = .writing left call) : Intact t b := by
  obtain ⟨hoff, hline, hwhole | ⟨rest, hsome, heq⟩⟩ := h
  · exact intact_append hout hoff hline hwhole
  · -- the block is of the process that writes
    obtain ⟨c', hb⟩ := FramePc.requestLeft_eq_some hsome
    have hpid : b.pid = pid := horderly.writer_unique (hb ▸ rfl) (pc ▸ rfl)
    rw [hpid, pc] at hb
    obtain ⟨rfl, rfl⟩ : c :: left = rest ∧ call = some c' := by simpa using hb
    rw [Intact, hout]
    refine ⟨by simp; omega, ?_, .inr ⟨left, by rw [hpid, hpc]; rfl, ?_⟩⟩
    · rwa [List.take_append_of_le_length hoff]
    · rw [List.drop_append_of_le_length hoff, List.append_assoc]
      exact heq

theorem FrameState.goto_self (s : FrameState) (pid : Nat) (q : FramePc) :
    (s.goto pid q).pc pid = q := by
  simp [goto]

theorem Intact.transferStep {s t : FrameState} {op : FrameOp} {b : Block} (horderly : Orderly s)
    (htraffic : Traffic s) (h : Intact s b) (hstep : TransferStep s op t) : Intact t b := by
  cases hstep with
  | put pc more => exact h.put horderly pc rfl (FrameState.goto_self _ _ _)
  | putLast pc => exact h.put horderly pc rfl (FrameState.goto_self _ _ _)
  | @eof pid line pc ready _ _ | @more pid line line' pc ready _ | @done pid line pc ready _ _ =>
    refine h.keep rfl fun left hleft => .inl ?_
    have hne : b.pid ≠ pid := by
      rintro rfl
      rw [pc] at hleft
      cases hleft
    simpa [FrameState.goto, hne] using hleft
  | reply first | arrive first free => exact h.keep rfl fun left hleft => .inl hleft
  | @echo b' echo first =>
    obtain ⟨hoff, hline, hwhole | ⟨left, hsome, heq⟩⟩ := h
    · exact intact_append rfl hoff hline hwhole
    · -- the request is out, so there is nothing left of its write
      obtain ⟨c', hb⟩ := FramePc.requestLeft_eq_some hsome
      have hout := htraffic.requestOut (.inr (by simp [first]))
      cases left with
      | cons d left =>
        exact absurd hout (horderly.not_requestOut hb rfl rfl)
      | nil =>
        rw [List.append_nil] at heq
        exact intact_append rfl hoff hline (heq ▸ List.prefix_rfl)

/-- A request that begins to be written starts a line: nobody is writing, and no reply is on its
way, because the process has the lock and has not asked yet. -/
theorem intact_beginRequest {s : FrameState} (h : FrameInv s) {pid : Nat} {line : List UInt8}
    {c : CallArgs} (pc : s.pc pid = .wants line (some c)) (free : s.writer = none) :
    EndsLine s.out := by
  rcases h.lineStart with ⟨p, hp⟩ | hline | ⟨hout, -⟩
  · have := h.writer p (FramePc.isWriting_of_midWrite hp)
    rw [free] at this
    cases this
  · exact hline
  · exact absurd hout (h.toOrderly.not_requestOut pc rfl rfl)

theorem FrameInv.blocks_controlStep {s t : FrameState} {op : FrameOp} (h : FrameInv s)
    (hstep : ControlStep s op t) : ∀ b ∈ t.blocks, Intact t b ∧ b.IsRequest := by
  have hcontrol := control_of_controlStep h.toOrderly hstep
  have hold : ∀ b ∈ s.blocks, Intact t b ∧ b.IsRequest := fun b hb =>
    ⟨(h.intact b hb).keep hcontrol.out fun left => hcontrol.requestLeft b.pid left,
      h.requests b hb⟩
  cases hstep with
  | @beginRequest pid line c pc free =>
    intro b hb
    rcases List.mem_append.mp hb with hb | hb
    · exact hold b hb
    · obtain rfl := List.mem_singleton.mp hb
      refine ⟨⟨Nat.le_refl _, ?_, .inr ⟨line, ?_, ?_⟩⟩, c, h.toOrderly.fine_at pc⟩
      · have hline := intact_beginRequest h pc free
        rwa [← List.take_length (l := s.out)] at hline
      · exact congrArg FramePc.requestLeft (FrameState.goto_self _ _ _)
      · simp [FrameState.goto]
  | _ => exact hold

/-- Every step the host and the processes are allowed keeps the invariant. -/
theorem FrameInv.step {s t : FrameState} {op : FrameOp} (h : FrameInv s) (hop : op.Allowed)
    (hstep : frameNext s op = some t) : FrameInv t := by
  rcases frameStep_of_next hstep with hcontrol | htransfer
  · have hsame := control_of_controlStep h.toOrderly hcontrol
    have hblocks := h.blocks_controlStep hcontrol
    exact ⟨h.toOrderly.controlStep hop.wellFormed hcontrol, h.toTraffic.control hsame,
      h.lineStart.control hsame, fun b hb => (hblocks b hb).1, fun b hb => (hblocks b hb).2⟩
  · have hblocks : t.blocks = s.blocks := by cases htransfer <;> rfl
    refine ⟨h.toOrderly.transferStep htransfer, h.toTraffic.transferStep h.toOrderly hop htransfer,
      h.lineStart.transferStep h.toOrderly h.toTraffic htransfer, ?_, ?_⟩
    · rw [hblocks]
      exact fun b hb => (h.intact b hb).transferStep h.toOrderly h.toTraffic htransfer
    · rw [hblocks]
      exact h.requests

/-! ## Whole runs -/

theorem frameInv_init {cons : Cons} (hempty : cons.r = cons.e) : FrameInv (.init cons) := by
  have hpending : cons.pending = [] := segment_of_le _ _ (Nat.le_of_eq hempty.symm)
  have hincoming : (FrameState.init cons).incoming = [] := by
    simp [FrameState.incoming, FrameState.init, hpending]
  refine ⟨⟨fun p h => (nomatch h), fun p h => (nomatch h), fun p => trivial⟩,
    ⟨.inr ⟨rfl, hincoming, rfl⟩, by simp [hincoming], by simp [hincoming], .inl rfl,
      fun _ => .inl rfl⟩,
    .inr (.inl (.inl rfl)), by simp [FrameState.init], by simp [FrameState.init]⟩

/-- A block of output that starts a line and is one is a line of the output. -/
theorem mem_inputLines {out text : List UInt8} {off : Nat} (hline : EndsLine (out.take off))
    (htext : newline ∉ text) (hwhole : text ++ [newline] <+: out.drop off) :
    text ∈ Agents.inputLines out := by
  obtain ⟨after, hafter⟩ := hwhole
  have hout : out = out.take off ++ (text ++ newline :: after) := by
    have hsplit := List.take_append_drop off out
    rw [← hafter] at hsplit
    simpa using hsplit.symm
  have hrest : Agents.inputLines (text ++ newline :: after) = text :: Agents.inputLines after :=
    Agents.linesFrom_newline htext [] after
  rcases hline with hnil | hlast
  · rw [hout, hnil, List.nil_append, hrest]
    exact List.mem_cons_self
  · obtain ⟨before, hbefore⟩ := List.getLast?_eq_some_iff.mp hlast
    rw [hout, hbefore, List.append_assoc, List.singleton_append, Agents.inputLines,
      Agents.linesFrom_append, hrest]
    exact List.mem_append_right _ List.mem_cons_self

/-- In every interleaving of the writes, the arrivals and the reads, each request starts a line and
its bytes follow each other; a complete one is a line of the output that passes the host's test. -/
theorem requests_never_torn {cons : Cons} (hempty : cons.r = cons.e) {ops : List FrameOp}
    (hops : ∀ op ∈ ops, op.Allowed) {t : FrameState}
    (hrun : exec frameNext (.init cons) ops = some t) : ∀ b ∈ t.blocks, Intact t b ∧
      (b.line <+: t.out.drop b.off → ∃ text ∈ Agents.inputLines t.out,
        b.line = text ++ [newline] ∧ proxyReqTag ++ [tab] <+: text) := by
  have hinv : FrameInv t := exec_invariant_of_along
    (fun s op u hmem h hstep _ => h.step (hops op hmem) hstep) (frameInv_init hempty) hrun
    (along_true _ _)
  intro b hb
  have hintact := hinv.intact b hb
  refine ⟨hintact, fun hwhole => ?_⟩
  obtain ⟨c, hcall, hline⟩ := hinv.requests b hb
  obtain ⟨text, htext, htag, honeLine⟩ := requestLine_eq_concat b.pid c.role c.prompt
  rw [hline, htext] at hwhole
  exact ⟨text, mem_inputLines hintact.2.1 (honeLine hcall.2.1 hcall.2.2) hwhole,
    hline.trans htext, htag⟩

/-- A process takes some steps. -/
def agents (n pid : Nat) : List FrameOp := List.replicate n (.agent pid)

/-- Some bytes arrive and are echoed at once. -/
def arrivals (n : Nat) : List FrameOp := (List.replicate n [FrameOp.arrive, FrameOp.echo]).flatten

/-- Process 1 asks, and reads the reply `x` while process 2 writes the line `e`; then process 2
asks. -/
def twoRequests : List FrameOp :=
  List.flatten [[.call 1 (callArgs "a" 256) false], agents 19 1, [.reply [120]], arrivals 3,
    [.emit 2 [101, 10], .agent 2, .agent 2, .arrive, .echo, .agent 2, .agent 2], arrivals 10,
    agents 15 1, [.call 2 (callArgs "b" 256) false], agents 19 2]

theorem twoRequests_intact :
    ∃ t, exec frameNext (.init .init) twoRequests = some t ∧ t.blocks.length = 2 ∧
      ∀ b ∈ t.blocks, Intact t b := by
  have hrun : ((exec frameNext (.init .init) twoRequests).any fun t =>
      decide (t.blocks.length = 2)) = true := by
    decide +kernel
  have hallowed : ∀ op ∈ twoRequests, op.Allowed := by decide +kernel
  obtain ⟨t, hexec, hlen⟩ := (Option.any_eq_true _ _).mp hrun
  exact ⟨t, hexec, of_decide_eq_true hlen,
    fun b hb => (requests_never_torn rfl hallowed hexec b hb).1⟩

/-- The host answers process 1 with `x`, a carriage return and `y`. Process 1 takes the carriage
return for the end of the reply and gives up the lock; process 2 has written three bytes of its
request when `y` is echoed. -/
def lateEcho : List FrameOp :=
  List.flatten [[.call 1 (callArgs "a" 256) false], agents 19 1, [.reply [120, 13, 121]],
    arrivals 14, agents 15 1, [.call 2 (callArgs "b" 256) false], agents 5 2, [.arrive, .echo],
    agents 14 2]

theorem request_torn_by_echo :
    (∀ op ∈ lateEcho, op.WellFormed) ∧
      ∃ t, exec frameNext (.init .init) lateEcho = some t ∧ ∃ b ∈ t.blocks, ¬ Intact t b := by
  have hrun : ((exec frameNext (.init .init) lateEcho).any fun t =>
      decide (∃ b ∈ t.blocks, ¬ Intact t b)) = true := by
    decide +kernel
  obtain ⟨t, hexec, htorn⟩ := (Option.any_eq_true _ _).mp hrun
  exact ⟨by decide +kernel, t, hexec, of_decide_eq_true htorn⟩

end LiberalOS.Proxy
