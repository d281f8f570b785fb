import Mathlib.Tactic.Ring
import Mathlib.Data.List.Induction
import Mathlib.Data.List.TakeWhile
import Mathlib.Data.Nat.Digits.Defs

/-!
# Decimal text of 32-bit integers

Printing through a small digit buffer and reading back with wrap-around arithmetic, and the round
trip on non-negative integers.
-/
namespace LiberalOS.Foundation

/-- Reduction to a signed 32-bit integer. -/
def wrap32 (x : Int) : Int := x.bmod 4294967296

theorem wrap32_of_lt {x : Int} (h0 : 0 ≤ x) (h : x < 2147483648) : wrap32 x = x := by
  unfold wrap32
  rw [Int.bmod_eq_of_le] <;> omega

def digit (d : Nat) : UInt8 := UInt8.ofNat (48 + d)

def isDigit (c : UInt8) : Bool := 48 ≤ c && c ≤ 57

theorem toNat_digit {d : Nat} (h : d < 10) : (digit d).toNat = 48 + d := by
  rw [digit, UInt8.toNat_ofNat_of_lt' (by rw [UInt8.size]; omega)]

theorem isDigit_digit {d : Nat} (h : d < 10) : isDigit (digit d) = true := by
  have ht := toNat_digit h
  simp only [isDigit, Bool.and_eq_true, decide_eq_true_eq, UInt8.le_iff_toNat_le, ht]
  exact ⟨by simp, by simp; omega⟩

/-- The digit buffer, least significant digit first, for at most `fuel` digits. -/
def lowDigits : Nat → Nat → List UInt8
  | 0, _ => []
  | fuel + 1, v => if v = 0 then [] else digit (v % 10) :: lowDigits fuel (v / 10)

/-- The text of a number with a 12-byte buffer. -/
def decimal (v : Nat) : List UInt8 := if v = 0 then [48] else (lowDigits 12 v).reverse

/-- Value of a digit string. -/
def readDigits (ds : List UInt8) : Int :=
  ds.foldl (fun v c => wrap32 (v * 10 + ((c.toNat : Int) - 48))) 0

/-- Read the digits at the front: the value and their number, or `none` without digits. -/
def readDecimal (s : List UInt8) : Option (Int × Nat) :=
  let ds := s.takeWhile isDigit
  if ds = [] then none else some (readDigits ds, ds.length)

theorem isDigit_of_mem_lowDigits {fuel v : Nat} {c : UInt8} (h : c ∈ lowDigits fuel v) :
    isDigit c = true := by
  induction fuel generalizing v with
  | zero => simp [lowDigits] at h
  | succ fuel ih =>
    rw [lowDigits] at h
    split at h
    · simp at h
    · rcases List.mem_cons.mp h with rfl | h
      · exact isDigit_digit (Nat.mod_lt _ (by decide))
      · exact ih h

theorem length_lowDigits_le (fuel v : Nat) : (lowDigits fuel v).length ≤ fuel := by
  induction fuel generalizing v with
  | zero => simp [lowDigits]
  | succ fuel ih =>
    rw [lowDigits]
    split
    · simp
    · simpa using ih (v / 10)

theorem readDigits_lowDigits {fuel v : Nat} (hfuel : v < 10 ^ fuel) (hv : v < 2147483648) :
    readDigits (lowDigits fuel v).reverse = v := by
  induction fuel generalizing v with
  | zero =>
    obtain rfl : v = 0 := by simpa using hfuel
    rfl
  | succ fuel ih =>
    rw [lowDigits]
    split
    · next h => simp [h, readDigits]
    · have hdiv : v / 10 < 10 ^ fuel := by
        rw [Nat.pow_succ] at hfuel
        omega
      have hrec := ih hdiv (by omega)
      have hdig := toNat_digit (Nat.mod_lt v (by decide : 0 < 10))
      rw [readDigits, List.reverse_cons, List.foldl_append]
      change wrap32 (readDigits (lowDigits fuel (v / 10)).reverse * 10 +
        (((digit (v % 10)).toNat : Int) - 48)) = v
      rw [hrec, hdig, wrap32_of_lt] <;> omega

theorem isDigit_of_mem_decimal {v : Nat} {c : UInt8} (h : c ∈ decimal v) : isDigit c = true := by
  rw [decimal] at h
  split at h
  · obtain rfl : c = 48 := by simpa using h
    decide
  · exact isDigit_of_mem_lowDigits (List.mem_reverse.mp h)

theorem length_decimal_le (v : Nat) : (decimal v).length ≤ 12 := by
  rw [decimal]
  split
  · simp
  · rw [List.length_reverse]
    exact length_lowDigits_le 12 v

theorem decimal_ne_nil (v : Nat) : decimal v ≠ [] := by
  rw [decimal]
  split
  · simp
  · next h => simp [lowDigits, h]

theorem readDigits_decimal {v : Nat} (h : v < 2147483648) : readDigits (decimal v) = v := by
  rw [decimal]
  split
  · next h0 => simp [h0, readDigits, wrap32]
  · exact readDigits_lowDigits (h.trans (by decide)) h

/-- Reading digits that are followed by something other than a digit. -/
theorem readDecimal_digits {ds : List UInt8} (hne : ds ≠ []) (hds : ∀ c ∈ ds, isDigit c = true)
    {c : UInt8} (hc : isDigit c = false) (rest : List UInt8) :
    readDecimal (ds ++ c :: rest) = some (readDigits ds, ds.length) := by
  have hfront : (ds ++ c :: rest).takeWhile isDigit = ds := by
    rw [List.takeWhile_append_of_pos hds]
    simp [hc]
  simp only [readDecimal, hfront, if_neg hne]

theorem readDecimal_eq_some {s : List UInt8} {r : Int × Nat} (h : readDecimal s = some r) :
    s.takeWhile isDigit ≠ [] ∧
      r = (readDigits (s.takeWhile isDigit), (s.takeWhile isDigit).length) := by
  simp only [readDecimal] at h
  split at h
  · cases h
  · next hne => exact ⟨hne, (Option.some.inj h).symm⟩

/-! ## Numbers and their digits -/

theorem length_lowDigits {fuel v : Nat} (h : v < 10 ^ fuel) :
    (lowDigits fuel v).length = (Nat.digits 10 v).length := by
  induction fuel generalizing v with
  | zero =>
    obtain rfl : v = 0 := by simpa using h
    rfl
  | succ fuel ih =>
    rw [lowDigits]
    split
    · next hzero => simp [hzero]
    · next hpos =>
      rw [Nat.digits_def' (by omega) (by omega), List.length_cons, List.length_cons, ih]
      rw [Nat.pow_succ] at h
      omega

/-- The text of a positive number has its decimal digits. -/
theorem length_decimal {v : Nat} (hpos : 1 ≤ v) (h : v < 10 ^ 12) :
    (decimal v).length = (Nat.digits 10 v).length := by
  rw [decimal, if_neg (by omega), List.length_reverse, length_lowDigits h]

/-- The number that a digit string denotes. -/
def digitsValue (ds : List UInt8) : Nat :=
  Nat.ofDigits 10 (ds.reverse.map fun c => c.toNat - 48)

theorem digitsValue_append_singleton (ds : List UInt8) (c : UInt8) :
    digitsValue (ds ++ [c]) = digitsValue ds * 10 + (c.toNat - 48) := by
  rw [digitsValue, List.reverse_append, List.reverse_singleton, List.singleton_append,
    List.map_cons, Nat.ofDigits_cons, digitsValue]
  omega

theorem toNat_of_isDigit {c : UInt8} (h : isDigit c = true) : 48 ≤ c.toNat ∧ c.toNat ≤ 57 := by
  simpa [isDigit, UInt8.le_iff_toNat_le] using h

theorem digitsValue_lt {ds : List UInt8} (hds : ∀ c ∈ ds, isDigit c = true) :
    digitsValue ds < 10 ^ ds.length := by
  induction ds using List.reverseRecOn with
  | nil => simp [digitsValue]
  | append_singleton ds c ih =>
    have hc := toNat_of_isDigit (hds c (by simp))
    have hrest := ih fun d hd => hds d (by simp [hd])
    rw [digitsValue_append_singleton, List.length_append, List.length_singleton, Nat.pow_succ]
    omega

/-- Reading does not wrap around on nine digits. -/
theorem readDigits_eq_digitsValue {ds : List UInt8} (hds : ∀ c ∈ ds, isDigit c = true)
    (hlen : ds.length ≤ 9) : readDigits ds = digitsValue ds := by
  induction ds using List.reverseRecOn with
  | nil => rfl
  | append_singleton ds c ih =>
    have hc := toNat_of_isDigit (hds c (by simp))
    have hvalue := digitsValue_lt hds
    have hpow : 10 ^ (ds ++ [c]).length ≤ 10 ^ 9 := Nat.pow_le_pow_right (by decide) hlen
    rw [digitsValue_append_singleton] at hvalue ⊢
    rw [List.length_append] at hlen
    have hrest := ih (fun d hd => hds d (by simp [hd])) (by omega)
    have hfold : readDigits (ds ++ [c]) = wrap32 (readDigits ds * 10 + ((c.toNat : Int) - 48)) := by
      simp only [readDigits, List.foldl_append, List.foldl_cons, List.foldl_nil]
    rw [hfold, hrest, wrap32_of_lt] <;> omega

end LiberalOS.Foundation
