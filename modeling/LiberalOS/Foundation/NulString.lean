import Mathlib.Data.List.Basic
import Mathlib.Data.List.TakeWhile

/-!
# NUL-terminated strings

`cstr` reads the string out of a byte buffer. `CString` is a string given by its content, whose
terminator is implicit, so a value of the type always denotes a well-formed string.
-/
namespace LiberalOS.Foundation

theorem bne_of_not_mem {α : Type*} [BEq α] [LawfulBEq α] {sep : α} {l : List α} (h : sep ∉ l) :
    ∀ a ∈ l, (a != sep) = true := by
  intro a ha
  have : a ≠ sep := fun he => h (he ▸ ha)
  simpa using this

/-- The string a buffer holds: its bytes before the first NUL. -/
def cstr (bs : List UInt8) : List UInt8 := bs.takeWhile (· != 0)

theorem zero_not_mem_cstr (bs : List UInt8) : (0 : UInt8) ∉ cstr bs := by
  intro h
  simpa using List.mem_takeWhile_imp h

theorem cstr_eq_self {bs : List UInt8} (h : (0 : UInt8) ∉ bs) : cstr bs = bs :=
  List.takeWhile_eq_self_iff.mpr (bne_of_not_mem h)

theorem cstr_append_zero {s : List UInt8} (h : (0 : UInt8) ∉ s) (rest : List UInt8) :
    cstr (s ++ 0 :: rest) = s := by
  induction s with
  | nil => simp [cstr]
  | cons b s ih =>
    have hb : b ≠ 0 := fun he => h (he ▸ List.mem_cons_self)
    have hs := ih fun hm => h (List.mem_cons_of_mem _ hm)
    simpa [cstr, hb] using hs

@[simp] theorem cstr_nil : cstr [] = [] := rfl

@[simp] theorem cstr_cons (b : UInt8) (bs : List UInt8) :
    cstr (b :: bs) = if b = 0 then [] else b :: cstr bs := by
  by_cases h : b = 0 <;> simp [cstr, h]

theorem length_cstr_le (bs : List UInt8) : (cstr bs).length ≤ bs.length :=
  List.Sublist.length_le (List.takeWhile_sublist _)

/-- A buffer that holds a string has its bytes and the terminator at the front. -/
theorem getElem?_of_cstr {bs : List UInt8} {k : Nat} (hlen : (cstr bs).length < bs.length)
    (hk : k ≤ (cstr bs).length) : bs[k]? = (cstr bs ++ [0])[k]? := by
  induction bs generalizing k with
  | nil => simp at hlen
  | cons b bs ih =>
    by_cases hb : b = 0
    · subst hb
      obtain rfl : k = 0 := by simpa using hk
      simp
    · cases k with
      | zero => simp [hb]
      | succ k =>
        simp only [cstr_cons, if_neg hb, List.length_cons] at hlen hk
        simpa [hb] using ih (by omega) (by omega)

theorem zero_mem_of_cstr_lt {bs : List UInt8} (h : (cstr bs).length < bs.length) :
    (0 : UInt8) ∈ bs := by
  have hget := getElem?_of_cstr h (Nat.le_refl _)
  rw [List.getElem?_concat_length] at hget
  exact List.mem_of_getElem? hget

theorem cstr_length_lt_of_zero_mem {bs : List UInt8} (h : (0 : UInt8) ∈ bs) :
    (cstr bs).length < bs.length := by
  refine Nat.lt_of_le_of_ne (length_cstr_le bs) fun heq => ?_
  have hself : cstr bs = bs := (List.takeWhile_prefix _).eq_of_length heq
  exact zero_not_mem_cstr bs (hself.symm ▸ h)

/-- The front of a buffer that holds a string: the string and its terminator. -/
theorem take_cstr_terminated {bs : List UInt8} (h : (cstr bs).length < bs.length) :
    bs.take ((cstr bs).length + 1) = cstr bs ++ [0] := by
  apply List.ext_getElem?
  intro k
  rw [List.getElem?_take]
  split
  · exact getElem?_of_cstr h (by omega)
  · rw [List.getElem?_eq_none (by simp; omega)]

/-- A cut behind the terminator keeps the string, whatever follows. -/
theorem cstr_take_append {bs : List UInt8} {n : Nat} (hn : (cstr bs).length < n)
    (hlen : (cstr bs).length < bs.length) (rest : List UInt8) :
    cstr (bs.take n ++ rest) = cstr bs := by
  induction bs generalizing n with
  | nil => simp at hlen
  | cons b bs ih =>
    obtain ⟨m, rfl⟩ : ∃ m, n = m + 1 := ⟨n - 1, by omega⟩
    by_cases hb : b = 0
    · simp [hb]
    · simp only [cstr_cons, if_neg hb, List.length_cons] at hn hlen
      simpa [hb] using ih (by omega) (by omega)

/-- A string by its content; the terminating NUL is implicit. -/
@[ext] structure CString where
  bytes : List UInt8
  nul_free : (0 : UInt8) ∉ bytes
  deriving DecidableEq

/-- The string held by a buffer. -/
def CString.ofBytes (bs : List UInt8) : CString := ⟨cstr bs, zero_not_mem_cstr bs⟩

/-- A string literal, one byte per character. -/
def CString.lit (s : String) : CString := .ofBytes (s.toList.map fun c => UInt8.ofNat c.toNat)

def CString.length (s : CString) : Nat := s.bytes.length

@[simp] theorem CString.cstr_bytes (s : CString) : cstr s.bytes = s.bytes := cstr_eq_self s.nul_free

end LiberalOS.Foundation
