import LiberalOS.Foundation.Execution
import LiberalOS.Kernel.Console
import LiberalOS.Proxy.Client

/-!
# A reply on its way through the console

The bytes of a reply arrive at `consoleintr` one by one, while the agent that holds the proxy lock
takes them out with reads of one byte. The reader sleeps while there is nothing for it; the sender
is never held back.

## Main results

* `got_eq_frame_iff` — the agent reads the whole frame exactly if it never has 128 bytes to catch
  up with when another one arrives.
-/
namespace LiberalOS.Proxy
open Foundation Console

/-! ## The system -/

inductive CrossEvent where
  | arrive
  | read
  deriving DecidableEq

/-- The console, how much of the frame has arrived, and what the agent has read. -/
structure Crossing where
  cons : Cons
  sent : Nat
  got : List UInt8

/-- One event. A read that would sleep is not possible; the bytes of the frame ask for no process
list. -/
def crossNext (frame : List UInt8) (s : Crossing) : CrossEvent → Option Crossing
  | .arrive => frame[s.sent]?.map fun c =>
      { s with cons := (consoleintr [] s.cons c).1, sent := s.sent + 1 }
  | .read =>
    let r := consoleread s.cons 1
    if r.asleep then none else some { s with cons := r.cons, got := s.got ++ r.bytes }

/-- The frame has arrived, and the agent has read all it can. -/
def Finished (frame : List UInt8) (s : Crossing) : Prop :=
  s.sent = frame.length ∧ (crossNext frame s .read).isNone = true

instance (frame : List UInt8) (s : Crossing) : Decidable (Finished frame s) := instDecidableAnd

/-- Whenever a byte arrives, fewer than 128 of those that came before it are unread; `unread` is
their number at the start. -/
def KeepsUp : Nat → List CrossEvent → Prop
  | _, [] => True
  | unread, .arrive :: events => unread < inputBufSize ∧ KeepsUp (unread + 1) events
  | unread, .read :: events => KeepsUp (unread - 1) events

instance decidableKeepsUp : ∀ unread events, Decidable (KeepsUp unread events)
  | _, [] => isTrue trivial
  | unread, .arrive :: events =>
    have : Decidable (KeepsUp (unread + 1) events) := decidableKeepsUp _ events
    instDecidableAnd
  | unread, .read :: events => decidableKeepsUp (unread - 1) events

/-! ## One event -/

/-- The bytes of a reply: neither a control byte nor a delete. -/
def Printable (c : UInt8) : Prop := 32 ≤ c ∧ c ≠ delete

instance (c : UInt8) : Decidable (Printable c) := instDecidableAnd

/-- The bytes of a frame: plain ones, the last of which ends the line. -/
structure PlainFrame (frame : List UInt8) : Prop where
  plain : ∀ c ∈ frame, Plain c
  last : frame.getLast? = some lineFeed

/-- Nothing is lost: what has arrived has been read or is waiting, and a complete frame waits where
the agent gets at it. -/
structure Unbroken (frame : List UInt8) (s : Crossing) : Prop where
  kept : s.got ++ s.cons.pending = frame.take s.sent
  sent_le : s.sent ≤ frame.length
  ended : s.sent = frame.length → s.cons.w = s.cons.e

variable {frame : List UInt8}

theorem crossNext_arrive {s t : Crossing} (hplain : ∀ c ∈ frame, Plain c)
    (h : crossNext frame s .arrive = some t) : ∃ c, frame[s.sent]? = some c ∧
      ((∃ hroom, t = ⟨s.cons.store c hroom, s.sent + 1, s.got⟩) ∨
        (s.cons.Full ∧ t = ⟨s.cons, s.sent + 1, s.got⟩)) := by
  obtain ⟨c, hc, rfl⟩ := Option.map_eq_some_iff.mp h
  refine ⟨c, hc, ?_⟩
  rw [consoleintr_plain [] s.cons (hplain c (List.mem_of_getElem? hc))]
  split
  next hroom => exact .inl ⟨hroom, rfl⟩
  next hfull => exact .inr ⟨hfull, rfl⟩

theorem crossNext_read {s t : Crossing} (hplain : ∀ c ∈ s.cons.pending, c ≠ control 'D')
    (h : crossNext frame s .read = some t) : ∃ c hr, s.cons.pending = c :: t.cons.pending ∧
      t = ⟨s.cons.advance hr, s.sent, s.got ++ [c]⟩ := by
  simp only [crossNext, consoleread_one] at h
  by_cases hr : s.cons.r < s.cons.w
  · have hpending := Cons.pending_eq_cons hr
    have hc : s.cons.buf (cell s.cons.r) ≠ control 'D' :=
      hplain _ (by rw [hpending]; exact List.mem_cons_self)
    rw [dif_pos hr, if_neg hc] at h
    obtain rfl := Option.some.inj h
    exact ⟨_, hr, hpending, rfl⟩
  · rw [dif_neg hr] at h
    cases h

theorem Unbroken.not_eof {s : Crossing} (hplain : ∀ c ∈ frame, Plain c) (h : Unbroken frame s) :
    ∀ c ∈ s.cons.pending, c ≠ control 'D' := by
  intro c hc
  have hmem : c ∈ frame.take s.sent := h.kept ▸ List.mem_append_right _ hc
  exact (hplain c (List.mem_of_mem_take hmem)).2.2.2.2.2.2

theorem Unbroken.store {s : Crossing} {c : UInt8} (hframe : PlainFrame frame)
    (h : Unbroken frame s) (hc : frame[s.sent]? = some c)
    (hroom : s.cons.e - s.cons.r < inputBufSize) :
    Unbroken frame ⟨s.cons.store c hroom, s.sent + 1, s.got⟩ where
  kept := by
    rw [Cons.pending_store, ← List.append_assoc, h.kept, List.take_add_one, hc]
    rfl
  sent_le := (List.getElem?_eq_some_iff.mp hc).1
  ended hend := by
    -- the byte that completes the frame ends the line
    have hlast : c = lineFeed := by
      have hlast := hframe.last
      rw [List.getLast?_eq_getElem?, ← show s.sent + 1 = frame.length from hend,
        Nat.add_sub_cancel, hc] at hlast
      exact Option.some.inj hlast
    exact if_pos (.inl hlast)

theorem Unbroken.read {s t : Crossing} (hframe : PlainFrame frame) (h : Unbroken frame s)
    (hstep : crossNext frame s .read = some t) :
    Unbroken frame t ∧ t.cons.pending.length = s.cons.pending.length - 1 := by
  obtain ⟨c, hr, hpending, rfl⟩ := crossNext_read (h.not_eof hframe.plain) hstep
  refine ⟨⟨?_, h.sent_le, h.ended⟩, by simp [hpending]⟩
  rw [List.append_assoc, ← h.kept, hpending]
  rfl

/-- Some byte has been dropped; the count of those that got in stays behind for good. -/
structure Lossy (s : Crossing) : Prop where
  fewer : s.got.length + s.cons.pending.length < s.sent
  not_eof : ∀ c ∈ s.cons.pending, c ≠ control 'D'

theorem Unbroken.drop {s : Crossing} (hframe : PlainFrame frame) (h : Unbroken frame s) :
    Lossy ⟨s.cons, s.sent + 1, s.got⟩ where
  fewer := by
    have hlen := congrArg List.length h.kept
    have := h.sent_le
    rw [List.length_append, List.length_take] at hlen
    dsimp only
    omega
  not_eof := by
    have hnot := h.not_eof hframe.plain
    exact hnot

theorem Lossy.step {s t : Crossing} {event : CrossEvent} (hplain : ∀ c ∈ frame, Plain c)
    (h : Lossy s) (hstep : crossNext frame s event = some t) : Lossy t := by
  cases event with
  | arrive =>
    obtain ⟨c, hc, ⟨hroom, rfl⟩ | ⟨-, rfl⟩⟩ := crossNext_arrive hplain hstep
    · refine ⟨?_, ?_⟩
      · have := h.fewer
        rw [Cons.pending_store, List.length_append, List.length_singleton]
        dsimp only
        omega
      · intro b hb
        rw [Cons.pending_store] at hb
        rcases List.mem_append.mp hb with hb | hb
        · exact h.not_eof b hb
        · rw [List.mem_singleton.mp hb]
          exact (hplain c (List.mem_of_getElem? hc)).2.2.2.2.2.2
    · exact ⟨Nat.lt_succ_of_lt h.fewer, h.not_eof⟩
  | read =>
    obtain ⟨c, hr, hpending, rfl⟩ := crossNext_read h.not_eof hstep
    refine ⟨?_, fun b hb => h.not_eof b (hpending ▸ List.mem_cons_of_mem _ hb)⟩
    have := h.fewer
    rw [hpending, List.length_cons] at this
    rw [List.length_append, List.length_singleton]
    dsimp only at *
    omega

/-! ## Whole runs -/

/-- A run in which the agent keeps up loses nothing, any other one loses a byte. -/
theorem unbroken_or_lossy (hframe : PlainFrame frame) {s t : Crossing} {events : List CrossEvent}
    (hs : Unbroken frame s) (hrun : exec (crossNext frame) s events = some t) :
    if KeepsUp s.cons.pending.length events then Unbroken frame t else Lossy t := by
  induction events generalizing s with
  | nil =>
    obtain rfl := Option.some.inj hrun
    simpa [KeepsUp] using hs
  | cons event events ih =>
    obtain ⟨u, hu, hrest⟩ := Option.bind_eq_some_iff.mp hrun
    cases event with
    | read =>
      obtain ⟨hunbroken, hlen⟩ := hs.read hframe hu
      have := ih hunbroken hrest
      rw [hlen] at this
      exact this
    | arrive =>
      obtain ⟨c, hc, ⟨hroom, rfl⟩ | ⟨hfull, rfl⟩⟩ := crossNext_arrive hframe.plain hu
      · have := ih (hs.store hframe hc hroom) hrest
        rw [Cons.pending_store, List.length_append, List.length_singleton] at this
        have hlen : s.cons.pending.length < inputBufSize := by
          rw [Cons.length_pending]
          exact hroom
        simpa only [KeepsUp, hlen, true_and] using this
      · have hlen : ¬ s.cons.pending.length < inputBufSize := by
          rw [Cons.length_pending]
          exact hfull
        rw [if_neg fun h => hlen h.1]
        exact exec_invariant (fun _ _ _ h hstep => h.step hframe.plain hstep) (hs.drop hframe) hrest

theorem Unbroken.got_eq {s : Crossing} (hs : Unbroken frame s) (h : Finished frame s) :
    s.got = frame := by
  obtain ⟨hsent, hread⟩ := h
  have hw : ¬ s.cons.r < s.cons.w := by
    intro hr
    rw [Option.isNone_iff_eq_none] at hread
    simp only [crossNext, consoleread_one, dif_pos hr] at hread
    split at hread <;> cases hread
  have hempty : s.cons.pending = [] := by
    apply List.eq_nil_of_length_eq_zero
    have := hs.ended hsent
    rw [Cons.length_pending]
    omega
  have hkept := hs.kept
  rwa [hempty, List.append_nil, hsent, List.take_length] at hkept

theorem plain_of_printable {c : UInt8} (h : Printable c) : Plain c := by
  obtain ⟨hge, hdel⟩ := h
  refine ⟨?_, ?_, ?_, ?_, hdel, ?_, ?_⟩ <;> rintro rfl <;> exact absurd hge (by decide)

theorem printable_of_mem_decimal {v : Nat} {c : UInt8} (h : c ∈ decimal v) : Printable c := by
  have hdigit := isDigit_of_mem_decimal h
  simp only [isDigit, Bool.and_eq_true, decide_eq_true_eq, UInt8.le_iff_toNat_le] at hdigit
  refine ⟨UInt8.le_iff_toNat_le.mpr (Nat.le_trans (by decide) hdigit.1), ?_⟩
  rintro rfl
  exact absurd hdigit.2 (by decide)

theorem plain_of_mem_proxyResTag {c : UInt8} (h : c ∈ proxyResTag) : Plain c := by
  have hall : (proxyResTag.all fun c => decide (Plain c)) = true := by decide
  exact of_decide_eq_true (List.all_eq_true.mp hall c h)

/-- The frame of a plain reply is plain. -/
theorem plainFrame_responseLine (pid : Nat) {reply : List UInt8} (h : ∀ c ∈ reply, Plain c) :
    PlainFrame (responseLine (decimal pid) reply) where
  plain c hc := by
    simp only [responseLine, List.mem_append, List.mem_cons, List.not_mem_nil, or_false] at hc
    rcases hc with htag | rfl | hid | rfl | hreply | rfl
    · exact plain_of_mem_proxyResTag htag
    · decide
    · exact plain_of_printable (printable_of_mem_decimal hid)
    · decide
    · exact h c hreply
    · decide
  last := by
    rw [responseLine_eq_concat, List.getLast?_concat]
    rfl

section
variable (pid : Nat) {reply : List UInt8} (hreply : ∀ c ∈ reply, Printable c)
  {cons : Cons} (hempty : cons.r = cons.e) {events : List CrossEvent} {t : Crossing}
  (hrun : exec (crossNext (responseLine (decimal pid) reply)) ⟨cons, 0, []⟩ events = some t)
include hreply hempty hrun

theorem reply_unbroken_or_lossy :
    if KeepsUp 0 events then Unbroken (responseLine (decimal pid) reply) t else Lossy t := by
  have hframe := plainFrame_responseLine pid fun c hc => plain_of_printable (hreply c hc)
  have hpending : cons.pending = [] := segment_of_le _ _ (Nat.le_of_eq hempty.symm)
  have hstart : Unbroken (responseLine (decimal pid) reply) ⟨cons, 0, []⟩ := by
    refine ⟨by simp [hpending], Nat.zero_le _, fun hend => ?_⟩
    simp [responseLine] at hend
  have hend := unbroken_or_lossy hframe hstart hrun
  simpa only [hpending, List.length_nil] using hend

/-- A reply to process `pid`, from an empty console. Where the agent keeps up, it has read the front
of the frame at any time, and the whole frame when it can read no more; it reads the whole frame in
no other run. -/
theorem got_eq_frame_iff :
    (KeepsUp 0 events → t.got <+: responseLine (decimal pid) reply) ∧
      (Finished (responseLine (decimal pid) reply) t →
        (t.got = responseLine (decimal pid) reply ↔ KeepsUp 0 events)) := by
  have hend := reply_unbroken_or_lossy pid hreply hempty hrun
  constructor
  · intro hkeeps
    rw [if_pos hkeeps] at hend
    exact (List.prefix_append _ _).trans (hend.kept ▸ List.take_prefix _ _)
  · intro hfinished
    constructor
    · intro hgot
      by_contra hlost
      rw [if_neg hlost] at hend
      have hfewer := hend.fewer
      rw [hgot, hfinished.1] at hfewer
      omega
    · intro hkeeps
      rw [if_pos hkeeps] at hend
      exact hend.got_eq hfinished

end

/-- The reply `ok` to process 3, read while it arrives. -/
theorem okReply_got :
    ∃ t, exec (crossNext (responseLine (decimal 3) [111, 107])) ⟨Cons.init, 0, []⟩
        (List.replicate 15 .arrive ++ List.replicate 15 .read) = some t ∧
      t.got = responseLine (decimal 3) [111, 107] := by
  have hrun : ((exec (crossNext (responseLine (decimal 3) [111, 107])) ⟨Cons.init, 0, []⟩
      (List.replicate 15 .arrive ++ List.replicate 15 .read)).any fun t =>
        decide (Finished (responseLine (decimal 3) [111, 107]) t)) = true := by
    decide +kernel
  have hreply : ∀ c ∈ [111, 107], Printable c := by
    rw [List.forall_mem_cons, List.forall_mem_singleton]
    decide
  obtain ⟨t, hexec, hfinished⟩ := (Option.any_eq_true _ _).mp hrun
  exact ⟨t, hexec, ((got_eq_frame_iff 3 hreply rfl hexec).2
    (of_decide_eq_true hfinished)).mpr (by decide)⟩

/-- A reply of 120 bytes that is there as a whole before the agent gets to read: the last five bytes
of its frame are gone, the end of the line among them. -/
theorem late_reader_loses_bytes :
    ∃ t, exec (crossNext (responseLine (decimal 3) (List.replicate 120 120))) ⟨Cons.init, 0, []⟩
        (List.replicate 133 .arrive ++ List.replicate 128 .read) = some t ∧
      Finished (responseLine (decimal 3) (List.replicate 120 120)) t ∧
      t.got = (responseLine (decimal 3) (List.replicate 120 120)).take 128 ∧
      t.got ≠ responseLine (decimal 3) (List.replicate 120 120) := by
  have hrun : ((exec (crossNext (responseLine (decimal 3) (List.replicate 120 120)))
      ⟨Cons.init, 0, []⟩ (List.replicate 133 .arrive ++ List.replicate 128 .read)).any fun t =>
        decide (Finished (responseLine (decimal 3) (List.replicate 120 120)) t ∧
      t.got = (responseLine (decimal 3) (List.replicate 120 120)).take 128 ∧
      t.got ≠ responseLine (decimal 3) (List.replicate 120 120))) = true := by
    decide +kernel
  obtain ⟨t, hexec, hlost⟩ := (Option.any_eq_true _ _).mp hrun
  exact ⟨t, hexec, of_decide_eq_true hlost⟩

/-! ## Frames that fit the ring -/

theorem keepsUp_of_count_le {events : List CrossEvent} {unread : Nat}
    (h : unread + events.count .arrive ≤ inputBufSize) : KeepsUp unread events := by
  induction events generalizing unread with
  | nil => trivial
  | cons event events ih =>
    cases event with
    | arrive =>
      rw [List.count_cons_self] at h
      exact ⟨by omega, ih (by omega)⟩
    | read =>
      rw [List.count_cons_of_ne (by decide)] at h
      exact ih (by omega)

theorem sent_of_exec {s t : Crossing} {events : List CrossEvent}
    (h : exec (crossNext frame) s events = some t) : t.sent = s.sent + events.count .arrive := by
  induction events generalizing s with
  | nil =>
    obtain rfl := Option.some.inj h
    simp
  | cons event events ih =>
    obtain ⟨u, hu, hrest⟩ := Option.bind_eq_some_iff.mp h
    rw [ih hrest]
    cases event with
    | arrive =>
      obtain ⟨c, -, rfl⟩ := Option.map_eq_some_iff.mp hu
      rw [List.count_cons_self]
      dsimp only
      omega
    | read =>
      simp only [crossNext] at hu
      split at hu
      · cases hu
      · obtain rfl := Option.some.inj hu
        rw [List.count_cons_of_ne (by decide)]

/-- A frame of up to 128 bytes crosses in every interleaving. -/
theorem short_frame_crosses (pid : Nat) {reply : List UInt8} (hreply : ∀ c ∈ reply, Printable c)
    (hshort : (responseLine (decimal pid) reply).length ≤ inputBufSize) {cons : Cons}
    (hempty : cons.r = cons.e) {events : List CrossEvent} {t : Crossing}
    (hrun : exec (crossNext (responseLine (decimal pid) reply)) ⟨cons, 0, []⟩ events = some t)
    (hfinished : Finished (responseLine (decimal pid) reply) t) :
    t.got = responseLine (decimal pid) reply := by
  have hend := reply_unbroken_or_lossy pid hreply hempty hrun
  have hsent := sent_of_exec hrun
  rw [if_pos (keepsUp_of_count_le (by rw [← hsent, hfinished.1]; exact hshort))] at hend
  exact hend.got_eq hfinished

end LiberalOS.Proxy
