import LiberalOS.Foundation.Decimal
import LiberalOS.Foundation.NulString
import LiberalOS.Kernel.Console
import LiberalOS.Kernel.Vm

/-!
# Formatted console output

`printf` of `kernel/printf.c`: the bytes that go to `consputc`, from a format and the arguments.

## Main results

* `printint_ten` — what a decimal number looks like.
* `printfLoop_append`, `printfLoop_d`, `printfLoop_s` — a format piece by piece.
-/
namespace LiberalOS.Kernel
open Foundation

def digits : List UInt8 := (CString.lit "0123456789abcdef").bytes

/-- The digit loop; `buf` has room for `fuel` more digits. The least significant digit is first. -/
def printintLoop (base : Nat) : Nat → Nat → List UInt8
  | 0, _ => []
  | fuel + 1, x =>
    digits.getD (x % base) 0 :: if x / base ≠ 0 then printintLoop base fuel (x / base) else []

/-- `printint` with its buffer of 20 bytes; `buf` is written from its end. -/
def printint (xx : Int) (base : Nat) (sign : Bool) : List UInt8 :=
  let neg := sign && decide (xx < 0)
  let x := u64 (if neg then -xx else xx)
  let buf := printintLoop base 20 x ++ if neg then [45] else []
  buf.reverse

/-- The 16 digits of a `uint64` from the top. -/
def printptr (x : Nat) : List UInt8 :=
  48 :: 120 :: (List.range 16).map fun i => digits.getD ((x <<< (4 * i)) % 2 ^ 64 / 2 ^ 60) 0

/-- An argument: an integer, or a pointer to a string. -/
inductive PrintfArg where
  | int (v : Int)
  | str (s : Option (List UInt8))

/-- `va_arg` of an integer type. -/
def vaInt : List PrintfArg → Int
  | .int v :: _ => v
  | _ => 0

/-- `va_arg` of a `char *`. -/
def vaStr : List PrintfArg → Option (List UInt8)
  | .str s :: _ => s
  | _ => none

/-- The conversion to `long long` of a `uint64` argument. -/
def long (x : Int) : Int := x.bmod (2 ^ 64)

/-- The conversion behind a `%`: what it prints, the number of its bytes in the format and the
remaining arguments, or the end of the format. -/
def conversion (c0 c1 c2 : UInt8) (ap : List PrintfArg) :
    Option (List UInt8 × Nat × List PrintfArg) :=
  let v := vaInt ap
  -- 100 is 'd', 108 'l', 117 'u', 120 'x', 112 'p', 99 'c' and 115 's'
  if c0 = 100 then some (printint (wrap32 v) 10 true, 1, ap.tail)
  else if c0 = 108 ∧ c1 = 100 then some (printint (long v) 10 true, 2, ap.tail)
  else if c0 = 108 ∧ c1 = 108 ∧ c2 = 100 then some (printint (long v) 10 true, 3, ap.tail)
  else if c0 = 117 then some (printint (v % 2 ^ 32) 10 false, 1, ap.tail)
  else if c0 = 108 ∧ c1 = 117 then some (printint (long v) 10 false, 2, ap.tail)
  else if c0 = 108 ∧ c1 = 108 ∧ c2 = 117 then some (printint (long v) 10 false, 3, ap.tail)
  else if c0 = 120 then some (printint (v % 2 ^ 32) 16 false, 1, ap.tail)
  else if c0 = 108 ∧ c1 = 120 then some (printint (long v) 16 false, 2, ap.tail)
  else if c0 = 108 ∧ c1 = 108 ∧ c2 = 120 then some (printint (long v) 16 false, 3, ap.tail)
  else if c0 = 112 then some (printptr (u64 v), 1, ap.tail)
  else if c0 = 99 then
    let c := if v % 2 ^ 32 = 256 then none else some (UInt8.ofNat (v % 256).toNat)
    some (Console.consputc c, 1, ap.tail)
  else if c0 = 115 then
    some (cstr ((vaStr ap).getD (CString.lit "(null)").bytes), 1, ap.tail)
  else if c0 = 37 then some ([37], 1, ap)
  else if c0 = 0 then none
  else some ([37, c0], 1, ap)

/-- The loop over the format; the next `skip` bytes belong to a conversion. -/
def printfLoop : Nat → List UInt8 → List PrintfArg → List UInt8
  | _, [], _ => []
  | skip + 1, _ :: fmt, ap => printfLoop skip fmt ap
  | 0, cx :: fmt, ap =>
    if cx ≠ 37 then cx :: printfLoop 0 fmt ap
    else
      let c0 := fmt.headD 0
      let c1 := if c0 ≠ 0 then fmt.getD 1 0 else 0
      let c2 := if c1 ≠ 0 then fmt.getD 2 0 else 0
      match conversion c0 c1 c2 ap with
      | none => []
      | some (out, n, ap) => out ++ printfLoop n fmt ap

def printf (fmt : CString) (ap : List PrintfArg) : List UInt8 := printfLoop 0 fmt.bytes ap

/-! ## Numbers -/

theorem digits_getD : ∀ d, d < 10 → digits.getD d 0 = digit d := by decide

theorem digit_eq_iff {d : Nat} (h : d < 10) : digit d = 48 ↔ d = 0 := by
  rw [← UInt8.toNat_inj, toNat_digit h]
  simp

/-- A number that fits into the buffer: digits without a leading zero. -/
theorem printintLoop_ten {fuel x : Nat} (hx : x < 10 ^ (fuel + 1)) :
    ∃ d t, (printintLoop 10 (fuel + 1) x).reverse = d :: t ∧ isDigit d = true ∧
      (∀ b ∈ t, isDigit b = true) ∧ (d = 48 → x = 0 ∧ t = []) := by
  induction fuel generalizing x with
  | zero =>
    have hten : x < 10 := by simpa using hx
    refine ⟨digit x, [], ?_, isDigit_digit hten, List.forall_mem_nil _, fun hzero => ?_⟩
    · rw [printintLoop, Nat.mod_eq_of_lt hten, digits_getD x hten,
        if_neg (not_not.mpr (Nat.div_eq_of_lt hten))]
      rfl
    · exact ⟨(digit_eq_iff hten).mp hzero, rfl⟩
  | succ fuel ih =>
    have hmod : x % 10 < 10 := Nat.mod_lt x (by decide)
    rw [printintLoop, digits_getD _ hmod]
    split
    · next hdiv =>
      obtain ⟨d, t, hrev, hd, ht, hzero⟩ := ih (x := x / 10) (by rw [Nat.pow_succ] at hx; omega)
      refine ⟨d, t ++ [digit (x % 10)], by simp [hrev], hd, ?_, fun h => absurd (hzero h).1 hdiv⟩
      intro b hb
      obtain hb | hb := List.mem_append.mp hb
      · exact ht b hb
      · exact List.mem_singleton.mp hb ▸ isDigit_digit hmod
    · next hdiv =>
      refine ⟨digit (x % 10), [], rfl, isDigit_digit hmod, List.forall_mem_nil _, fun hzero => ?_⟩
      have := (digit_eq_iff hmod).mp hzero
      exact ⟨by omega, rfl⟩

theorem u64_lt (x : Int) : u64 x < 2 ^ 64 := by
  unfold u64
  omega

/-- A decimal number: perhaps a sign, and digits without a leading zero. -/
theorem printint_ten (xx : Int) (sign : Bool) :
    ∃ neg d t, printint xx 10 sign = (if neg = true then [45] else []) ++ d :: t ∧
      isDigit d = true ∧ (∀ b ∈ t, isDigit b = true) ∧ (d = 48 → t = []) := by
  obtain ⟨d, t, hrev, hd, ht, hzero⟩ := @printintLoop_ten 19
    (u64 (if (sign && decide (xx < 0)) = true then -xx else xx)) ((u64_lt _).trans (by decide))
  refine ⟨sign && decide (xx < 0), d, t, ?_, hd, ht, fun h => (hzero h).2⟩
  rw [printint, List.reverse_append, hrev]
  split <;> rfl

/-! ## Formats -/

theorem printfLoop_cons {b : UInt8} (h : b ≠ 37) (fmt : List UInt8) (ap : List PrintfArg) :
    printfLoop 0 (b :: fmt) ap = b :: printfLoop 0 fmt ap := by
  rw [printfLoop, if_pos h]

/-- Bytes of the format that are no `%`. -/
theorem printfLoop_append {seg : List UInt8} (h : (37 : UInt8) ∉ seg) (fmt : List UInt8)
    (ap : List PrintfArg) : printfLoop 0 (seg ++ fmt) ap = seg ++ printfLoop 0 fmt ap := by
  induction seg with
  | nil => rfl
  | cons b seg ih =>
    obtain ⟨hb, hseg⟩ := List.ne_and_not_mem_of_not_mem_cons h
    rw [List.cons_append, printfLoop_cons (Ne.symm hb), ih hseg, List.cons_append]

theorem printfLoop_d (v : Int) (fmt : List UInt8) (ap : List PrintfArg) :
    printfLoop 0 (37 :: 100 :: fmt) (.int v :: ap) =
      printint (wrap32 v) 10 true ++ printfLoop 0 fmt ap := by
  rw [printfLoop, if_neg (not_not.mpr rfl)]
  rfl

theorem printfLoop_s (s fmt : List UInt8) (ap : List PrintfArg) :
    printfLoop 0 (37 :: 115 :: fmt) (.str (some s) :: ap) = cstr s ++ printfLoop 0 fmt ap := by
  rw [printfLoop, if_neg (not_not.mpr rfl)]
  rfl

end LiberalOS.Kernel
