import LiberalOS.Foundation.Ring
import LiberalOS.Foundation.NulString

/-!
# The console

Input and echo of `kernel/console.c`. Input bytes wait in a ring of 128 cells between the read index
`r` and the edit index `e`; a reader gets those before the write index `w`, which moves up at the
end of a line and when the ring is full. The indices never wrap here: they are compared by their
differences, and 128 divides the range of the `uint` fields.

## Main results

* `consoleintr_cases` — a byte is appended and echoed, or nothing is added.
* `consoleintr_plain` — an ordinary byte is appended and echoed, or dropped when the ring is full.
* `consoleread_one` — a read of one byte takes the one in front.
-/
namespace LiberalOS.Console
open Foundation

/-! ## The input buffer -/

abbrev inputBufSize : Nat := 128

theorem inputBufSize_pos : 0 < inputBufSize := by decide

/-- The cell of an index. -/
def cell (i : Nat) : Fin inputBufSize := ringCell inputBufSize_pos i

def lineFeed : UInt8 := 10
def carriageReturn : UInt8 := 13
def delete : UInt8 := 127

/-- The byte of a control key. -/
def control (key : Char) : UInt8 := UInt8.ofNat (key.toNat - 64)

/-- `struct cons`. -/
structure Cons where
  buf : Fin inputBufSize → UInt8
  r : Nat
  w : Nat
  e : Nat
  r_le_w : r ≤ w
  w_le_e : w ≤ e
  e_le : e ≤ r + inputBufSize

namespace Cons

/-- The console before any input. -/
def init : Cons := ⟨fun _ => 0, 0, 0, 0, Nat.le_refl _, Nat.le_refl _, Nat.zero_le _⟩

/-- The bytes that have been stored and not been read, the line being edited included. -/
def pending (cons : Cons) : List UInt8 := segment inputBufSize_pos cons.buf cons.r cons.e

/-- The ring has no free cell. -/
def Full (cons : Cons) : Prop := ¬ cons.e - cons.r < inputBufSize

instance (cons : Cons) : Decidable cons.Full := instDecidableNot

theorem length_pending (cons : Cons) : cons.pending.length = cons.e - cons.r :=
  length_segment _ _ _ _

/-- Take back the last byte of the line being edited. -/
def erase (cons : Cons) (h : cons.w < cons.e) : Cons :=
  { cons with
    e := cons.e - 1
    w_le_e := Nat.le_sub_one_of_lt h
    e_le := Nat.le_trans (Nat.sub_le _ _) cons.e_le }

/-- The write index after `c` has been stored. -/
def nextW (cons : Cons) (c : UInt8) : Nat :=
  if c = lineFeed ∨ c = control 'D' ∨ cons.e + 1 - cons.r = inputBufSize then cons.e + 1 else cons.w

theorem r_le_nextW (cons : Cons) (c : UInt8) : cons.r ≤ cons.nextW c := by
  have := cons.r_le_w
  have := cons.w_le_e
  unfold nextW
  split <;> omega

theorem nextW_le (cons : Cons) (c : UInt8) : cons.nextW c ≤ cons.e + 1 := by
  have := cons.w_le_e
  unfold nextW
  split <;> omega

theorem succ_e_le {cons : Cons} (h : cons.e - cons.r < inputBufSize) :
    cons.e + 1 ≤ cons.r + inputBufSize := by
  omega

/-- Store a byte at the edit index. -/
def store (cons : Cons) (c : UInt8) (h : cons.e - cons.r < inputBufSize) : Cons where
  buf := Function.update cons.buf (cell cons.e) c
  r := cons.r
  w := cons.nextW c
  e := cons.e + 1
  r_le_w := cons.r_le_nextW c
  w_le_e := cons.nextW_le c
  e_le := succ_e_le h

@[simp] theorem pending_store (cons : Cons) (c : UInt8) (h : cons.e - cons.r < inputBufSize) :
    (cons.store c h).pending = cons.pending ++ [c] :=
  segment_push inputBufSize_pos cons.buf (Nat.le_trans cons.r_le_w cons.w_le_e) (succ_e_le h) c

end Cons

/-! ## Input -/

/-- `consputc`, `none` for `BACKSPACE`. -/
def consputc : Option UInt8 → List UInt8
  | none => [control 'H', 32, control 'H']
  | some c => [c]

/-- The loop for a killed line, over at most `e - w` bytes. -/
def killLine : Nat → Cons → Cons × List UInt8
  | 0, cons => (cons, [])
  | fuel + 1, cons =>
    if h : cons.w < cons.e then
      if cons.buf (cell (cons.e - 1)) ≠ lineFeed then
        let (cons, echo) := killLine fuel (cons.erase h)
        (cons, consputc none ++ echo)
      else (cons, [])
    else (cons, [])

/-- The interrupt handler for an input byte, with the bytes it sends to the UART. `procdump` is the
text of the process list. -/
def consoleintr (procdump : List UInt8) (cons : Cons) (c : UInt8) : Cons × List UInt8 :=
  if c = control 'P' then (cons, procdump)
  else if c = control 'U' then killLine (cons.e - cons.w) cons
  else if c = control 'H' ∨ c = delete then
    if h : cons.w < cons.e then (cons.erase h, consputc none) else (cons, [])
  else if h : c ≠ 0 ∧ cons.e - cons.r < inputBufSize then
    let c := if c = carriageReturn then lineFeed else c
    (cons.store c h.2, consputc (some c))
  else (cons, [])

/-- A byte without a meaning of its own to the console; a line feed is one, too. -/
def Plain (c : UInt8) : Prop :=
  c ≠ 0 ∧ c ≠ control 'P' ∧ c ≠ control 'U' ∧ c ≠ control 'H' ∧ c ≠ delete ∧ c ≠ carriageReturn ∧
    c ≠ control 'D'

instance (c : UInt8) : Decidable (Plain c) := instDecidableAnd

/-- An ordinary byte is stored and echoed unless the ring is full. -/
theorem consoleintr_plain (procdump : List UInt8) (cons : Cons) {c : UInt8} (hc : Plain c) :
    consoleintr procdump cons c =
      if h : cons.e - cons.r < inputBufSize then (cons.store c h, [c]) else (cons, []) := by
  obtain ⟨hzero, hp, hu, hh, hdel, hcr, -⟩ := hc
  simp [consoleintr, hzero, hp, hu, hh, hdel, hcr, consputc]

theorem Cons.pending_erase (cons : Cons) (h : cons.w < cons.e) :
    (cons.erase h).pending <+: cons.pending := by
  have hr := cons.r_le_w
  have hle : cons.r ≤ cons.e - 1 := by omega
  exact ⟨_, (segment_append inputBufSize_pos cons.buf hle (Nat.sub_le _ _)).symm⟩

theorem pending_killLine (fuel : Nat) (cons : Cons) :
    (killLine fuel cons).1.pending <+: cons.pending := by
  induction fuel generalizing cons with
  | zero => exact List.prefix_rfl
  | succ fuel ih =>
    rw [killLine]
    split
    next h =>
      split
      · exact (ih (cons.erase h)).trans (cons.pending_erase h)
      · exact List.prefix_rfl
    next => exact List.prefix_rfl

/-- Any byte but a carriage return is stored and echoed, or nothing is added to the input. -/
theorem consoleintr_cases (procdump : List UInt8) (cons : Cons) {c : UInt8}
    (hc : c ≠ carriageReturn) :
    (∃ hroom, consoleintr procdump cons c = (cons.store c hroom, [c])) ∨
      (consoleintr procdump cons c).1.pending <+: cons.pending := by
  unfold consoleintr
  split
  · exact .inr List.prefix_rfl
  split
  · exact .inr (pending_killLine _ cons)
  split
  · refine .inr ?_
    split
    next h => exact cons.pending_erase h
    next => exact List.prefix_rfl
  split
  next h => exact .inl ⟨h.2, rfl⟩
  next => exact .inr List.prefix_rfl

/-! ## Reading -/

/-- What a `consoleread` comes to: the bytes copied, and whether it waits for more input. -/
structure ReadEnd where
  cons : Cons
  bytes : List UInt8
  asleep : Bool

/-- Take a byte a reader may have. -/
def Cons.advance (cons : Cons) (h : cons.r < cons.w) : Cons :=
  { cons with
    r := cons.r + 1
    r_le_w := h
    e_le := Nat.le_trans cons.e_le (Nat.add_le_add_right (Nat.le_succ _) _) }

/-- The loop of `consoleread` for a reader that is not killed, with `n` of `target` bytes to go. -/
def consolereadLoop (target : Nat) : Nat → Cons → List UInt8 → ReadEnd
  | 0, cons, got => ⟨cons, got, false⟩
  | n + 1, cons, got =>
    if h : cons.r < cons.w then
      let c := cons.buf (cell cons.r)
      -- the end of the file is kept for the next call if this one has bytes to return
      if c = control 'D' then ⟨if n + 1 < target then cons else cons.advance h, got, false⟩
      else if c = lineFeed then ⟨cons.advance h, got ++ [c], false⟩
      else consolereadLoop target n (cons.advance h) (got ++ [c])
    else ⟨cons, got, true⟩

def consoleread (cons : Cons) (n : Nat) : ReadEnd := consolereadLoop n n cons []

theorem Cons.pending_eq_cons {cons : Cons} (h : cons.r < cons.w) :
    cons.pending = cons.buf (cell cons.r) :: (cons.advance h).pending :=
  segment_cons inputBufSize_pos cons.buf (Nat.lt_of_lt_of_le h cons.w_le_e)

/-- A read of one byte. -/
theorem consoleread_one (cons : Cons) : consoleread cons 1 =
    if h : cons.r < cons.w then
      if cons.buf (cell cons.r) = control 'D' then ⟨cons.advance h, [], false⟩
      else ⟨cons.advance h, [cons.buf (cell cons.r)], false⟩
    else ⟨cons, [], true⟩ := by
  simp only [consoleread, consolereadLoop]
  split
  · split
    · rfl
    split <;> rfl
  · rfl

end LiberalOS.Console
