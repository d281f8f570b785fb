import LiberalOS.Foundation.Decimal
import LiberalOS.Foundation.Utf8Decode

/-!
# JSON

The grammar of JSON texts in UTF-8, as relations between a text, what is read off its front and the
rest. Strings are given by the bytes they stand for; a lone surrogate stands for U+FFFD.

A text that is embedded between quotes as it is may be read as another string than itself. It is
read as itself exactly if it is *clean*: well-formed UTF-8 without quotes, backslashes and control
characters.

## Main results

* `strBody_verbatim_iff`, `strBody_self` — the strings that are read as themselves.
-/
namespace LiberalOS.Foundation

inductive Json where
  | null
  | bool (b : Bool)
  | num (text : List UInt8)
  | str (bytes : List UInt8)
  | arr (items : List Json)
  | obj (members : List (List UInt8 × Json))

/-! ## Strings -/

/-- The value of a hexadecimal digit. -/
def hexVal (b : UInt8) : Option Nat :=
  if 48 ≤ b ∧ b ≤ 57 then some (b.toNat - 48)
  else if 65 ≤ b ∧ b ≤ 70 then some (b.toNat - 55)
  else if 97 ≤ b ∧ b ≤ 102 then some (b.toNat - 87)
  else none

/-- Read `k` hexadecimal digits behind those with the value `n`. -/
def hexDigits : Nat → Nat → List UInt8 → Option (Nat × List UInt8)
  | 0, n, t => some (n, t)
  | _ + 1, _, [] => none
  | k + 1, n, d :: t => (hexVal d).bind fun v => hexDigits k (16 * n + v) t

/-- The second half of a surrogate pair. -/
def lowSurrogate : List UInt8 → Option (Nat × List UInt8)
  | 92 :: 117 :: t => (hexDigits 4 0 t).filter fun r => 0xDC00 ≤ r.1 ∧ r.1 ≤ 0xDFFF
  | _ => none

def codePoint (n : Nat) : Char := if n.isValidChar then Char.ofNat n else '\uFFFD'

/-- What follows `\u`: the bytes of the character, and the rest. -/
def unicodeEscape (t : List UInt8) : Option (List UInt8 × List UInt8) :=
  (hexDigits 4 0 t).map fun (n, t) =>
    match if 0xD800 ≤ n ∧ n ≤ 0xDBFF then lowSurrogate t else none with
    | some (m, t') =>
      (String.utf8EncodeChar (codePoint (0x10000 + (n - 0xD800) * 0x400 + (m - 0xDC00))), t')
    | none => (String.utf8EncodeChar (codePoint n), t)

/-- The escapes of one letter. -/
def simpleEscape (c : UInt8) : Option UInt8 :=
  if c = 34 ∨ c = 92 ∨ c = 47 then some c
  else if c = 98 then some 8
  else if c = 102 then some 12
  else if c = 110 then some 10
  else if c = 114 then some 13
  else if c = 116 then some 9
  else none

/-- What follows a backslash. -/
def escape : List UInt8 → Option (List UInt8 × List UInt8)
  | [] => none
  | c :: t =>
    match simpleEscape c with
    | some b => some ([b], t)
    | none => if c = 117 then unicodeEscape t else none

/-- `StrBody t s r`: behind an opening quote, `t` stands for `s` up to the closing quote, and `r` is
the rest. -/
inductive StrBody : List UInt8 → List UInt8 → List UInt8 → Prop
  | close {r} : StrBody (34 :: r) [] r
  | plain {b t s r} : b ≠ 34 → b ≠ 92 → 32 ≤ b → StrBody t s r → StrBody (b :: t) (b :: s) r
  | escape {t e t' s r} : escape t = some (e, t') → StrBody t' s r → StrBody (92 :: t) (e ++ s) r

/-! ## Values -/

def isSpace (b : UInt8) : Bool := b == 32 || b == 9 || b == 10 || b == 13

def skipSpace (t : List UInt8) : List UInt8 := t.dropWhile isSpace

/-- The bytes of numbers. -/
def isNumByte (b : UInt8) : Bool :=
  isDigit b || b == 43 || b == 45 || b == 46 || b == 69 || b == 101

/-- One or more digits. -/
def isDigits (t : List UInt8) : Bool := !t.isEmpty && t.all isDigit

/-- The exponent of a number, if there is one. -/
def isExponent : List UInt8 → Bool
  | [] => true
  | e :: t =>
    (e == 69 || e == 101) &&
      isDigits (if t.head? = some 43 ∨ t.head? = some 45 then t.tail else t)

/-- What may follow the integer part. -/
def isFraction : List UInt8 → Bool
  | 46 :: t => isDigits (t.takeWhile isDigit) && isExponent (t.dropWhile isDigit)
  | t => isExponent t

/-- A number without its sign; only zero starts with a zero. -/
def isUnsigned : List UInt8 → Bool
  | [] => false
  | d :: t => if d = 48 then isFraction t else isDigit d && isFraction (t.dropWhile isDigit)

def isNumber (t : List UInt8) : Bool := isUnsigned (if t.head? = some 45 then t.tail else t)

mutual

/-- `ParsesValue t v r`: the text `t` starts with the value `v`, and `r` is the rest. -/
inductive ParsesValue : List UInt8 → Json → List UInt8 → Prop
  | null {t r} : skipSpace t = [110, 117, 108, 108] ++ r → ParsesValue t .null r
  | true {t r} : skipSpace t = [116, 114, 117, 101] ++ r → ParsesValue t (.bool true) r
  | false {t r} : skipSpace t = [102, 97, 108, 115, 101] ++ r → ParsesValue t (.bool false) r
  | num {t} : isNumber ((skipSpace t).takeWhile isNumByte) = true →
      ParsesValue t (.num ((skipSpace t).takeWhile isNumByte)) ((skipSpace t).dropWhile isNumByte)
  | str {t t' s r} : skipSpace t = 34 :: t' → StrBody t' s r → IsUtf8 s → ParsesValue t (.str s) r
  | emptyArr {t t' r} : skipSpace t = 91 :: t' → skipSpace t' = 93 :: r → ParsesValue t (.arr []) r
  | arr {t t' vs r} : skipSpace t = 91 :: t' → ParsesItems t' vs r → ParsesValue t (.arr vs) r
  | emptyObj {t t' r} :
      skipSpace t = 123 :: t' → skipSpace t' = 125 :: r → ParsesValue t (.obj []) r
  | obj {t t' ms r} : skipSpace t = 123 :: t' → ParsesMembers t' ms r → ParsesValue t (.obj ms) r

/-- The items of an array, up to the closing bracket. -/
inductive ParsesItems : List UInt8 → List Json → List UInt8 → Prop
  | last {t v t' r} : ParsesValue t v t' → skipSpace t' = 93 :: r → ParsesItems t [v] r
  | cons {t v t' t'' vs r} : ParsesValue t v t' → skipSpace t' = 44 :: t'' →
      ParsesItems t'' vs r → ParsesItems t (v :: vs) r

/-- The members of an object, up to the closing brace. -/
inductive ParsesMembers : List UInt8 → List (List UInt8 × Json) → List UInt8 → Prop
  | last {t m t' r} : ParsesMember t m t' → skipSpace t' = 125 :: r → ParsesMembers t [m] r
  | cons {t m t' t'' ms r} : ParsesMember t m t' → skipSpace t' = 44 :: t'' →
      ParsesMembers t'' ms r → ParsesMembers t (m :: ms) r

inductive ParsesMember : List UInt8 → List UInt8 × Json → List UInt8 → Prop
  | mk {t t₁ k t₂ t₃ v r} : skipSpace t = 34 :: t₁ → StrBody t₁ k t₂ → IsUtf8 k →
      skipSpace t₂ = 58 :: t₃ → ParsesValue t₃ v r → ParsesMember t (k, v) r

end

/-- The text is a JSON document with this value. -/
def IsJson (t : List UInt8) (v : Json) : Prop := ∃ r, ParsesValue t v r ∧ skipSpace r = []

/-! ## Clean strings -/

/-- No quote, no backslash and no control character. -/
def Verbatim (bs : List UInt8) : Prop := ∀ b ∈ bs, b ≠ 34 ∧ b ≠ 92 ∧ 32 ≤ b

def Clean (bs : List UInt8) : Prop := IsUtf8 bs ∧ Verbatim bs

instance (bs : List UInt8) : Decidable (Verbatim bs) :=
  inferInstanceAs (Decidable (∀ b ∈ bs, b ≠ 34 ∧ b ≠ 92 ∧ 32 ≤ b))

instance (bs : List UInt8) : Decidable (Clean bs) := inferInstanceAs (Decidable (_ ∧ _))

/-- The test for bytes that are given. -/
theorem clean_of_all {bs : List UInt8}
    (h : bs.all (fun b => b < 128 && b != 34 && b != 92 && 32 ≤ b) = true) : Clean bs := by
  simp only [List.all_eq_true, Bool.and_eq_true, decide_eq_true_eq, bne_iff_ne] at h
  refine ⟨⟨asciiText bs, ?_⟩, fun b hb => ⟨(h b hb).1.1.2, (h b hb).1.2, (h b hb).2⟩⟩
  exact (utf8Encode_asciiText fun b hb => (h b hb).1.1.1).symm

/-- A string without quotes, backslashes and control characters is read as itself. -/
theorem strBody_verbatim_iff {bs : List UInt8} (h : Verbatim bs) {t s r : List UInt8} :
    StrBody (bs ++ 34 :: t) s r ↔ s = bs ∧ r = t := by
  induction bs generalizing s with
  | nil =>
    constructor
    · intro hread
      cases hread with
      | close => exact ⟨rfl, rfl⟩
      | plain hquote => exact absurd rfl hquote
    · rintro ⟨rfl, rfl⟩
      exact .close
  | cons b bs ih =>
    obtain ⟨⟨hquote, hslash, hctl⟩, hbs⟩ := List.forall_mem_cons.mp h
    constructor
    · intro hread
      cases hread with
      | close => exact absurd rfl hquote
      | plain _ _ _ hrest =>
        obtain ⟨rfl, rfl⟩ := (ih hbs).mp hrest
        exact ⟨rfl, rfl⟩
      | escape => exact absurd rfl hslash
    · rintro ⟨rfl, rfl⟩
      exact .plain hquote hslash hctl ((ih hbs).mpr ⟨rfl, rfl⟩)

theorem hexDigits_within {k n m : Nat} {raw more t : List UInt8}
    (h : hexDigits k n (raw ++ 34 :: more) = some (m, t)) :
    ∃ v u, raw = v ++ u ∧ v.length = k ∧ t = u ++ 34 :: more := by
  induction k generalizing n raw with
  | zero =>
    obtain ⟨-, rfl⟩ := Prod.mk.inj (Option.some.inj h)
    exact ⟨[], raw, rfl, rfl, rfl⟩
  | succ k ih =>
    cases raw with
    | nil => simp [hexDigits, hexVal] at h
    | cons d raw =>
      obtain ⟨x, -, hrest⟩ := Option.bind_eq_some_iff.mp h
      obtain ⟨v, u, rfl, hlen, rfl⟩ := ih hrest
      exact ⟨d :: v, u, rfl, by simp [hlen], rfl⟩

theorem lowSurrogate_within {m : Nat} {raw more t : List UInt8}
    (h : lowSurrogate (raw ++ 34 :: more) = some (m, t)) :
    ∃ v u, raw = v ++ u ∧ v.length = 6 ∧ t = u ++ 34 :: more := by
  match raw with
  | [] => simp [lowSurrogate] at h
  | [c] => by_cases hc : c = 92 <;> simp [lowSurrogate, hc] at h
  | c :: c' :: raw =>
    by_cases hc : c = 92 ∧ c' = 117
    · obtain ⟨rfl, rfl⟩ := hc
      obtain ⟨hhex, -⟩ := Option.filter_eq_some_iff.mp h
      obtain ⟨v, u, rfl, hlen, rfl⟩ := hexDigits_within hhex
      exact ⟨92 :: 117 :: v, u, rfl, by simp [hlen], rfl⟩
    · simp only [lowSurrogate, List.cons_append] at h
      split at h
      · next heq => simp_all
      · cases h

/-- An escape that starts in front of a quote does not reach over it, and stands for fewer bytes
than it has. -/
theorem escape_within {c : UInt8} {raw more e t : List UInt8}
    (h : escape (c :: (raw ++ 34 :: more)) = some (e, t)) :
    ∃ v u, raw = v ++ u ∧ t = u ++ 34 :: more ∧ e.length ≤ v.length + 1 := by
  rw [escape] at h
  split at h
  · obtain ⟨rfl, rfl⟩ := Prod.mk.inj (Option.some.inj h)
    exact ⟨[], raw, rfl, rfl, by simp⟩
  · simp only [Option.ite_none_right_eq_some, unicodeEscape, Option.map_eq_some_iff,
      Prod.exists] at h
    obtain ⟨-, n, t₁, hhex, heq⟩ := h
    obtain ⟨v, u, rfl, hlen, rfl⟩ := hexDigits_within hhex
    have hsize (c : Char) : (String.utf8EncodeChar c).length ≤ 4 :=
      (String.length_utf8EncodeChar c).trans_le c.utf8Size_le_four
    split at heq
    · next m t' hlow =>
      obtain ⟨rfl, rfl⟩ := Prod.mk.inj heq
      rw [Option.ite_none_right_eq_some] at hlow
      obtain ⟨w, u', rfl, hw, rfl⟩ := lowSurrogate_within hlow.2
      refine ⟨v ++ w, u', by simp, rfl, (hsize _).trans ?_⟩
      rw [List.length_append]
      omega
    · obtain ⟨rfl, rfl⟩ := Prod.mk.inj heq
      exact ⟨v, u, rfl, rfl, (hsize _).trans (by omega)⟩

/-- A string in front of another member. What is read off is shorter than the text between the
quotes, or the text itself if that is verbatim. Or else the closing quote is escaped, and the comma
ends what is read off. -/
theorem strBody_front {raw tail t s r : List UInt8} (h : StrBody t s r)
    (ht : t = raw ++ 34 :: 44 :: 34 :: tail) :
    (s.length ≤ raw.length ∧
        (s.length = raw.length → Verbatim raw ∧ s = raw ∧ r = 44 :: 34 :: tail)) ∨
      (raw.getLast? = some 92 ∧ s.getLast? = some 44) := by
  induction h generalizing raw with
  | close =>
    cases raw with
    | nil =>
      obtain ⟨-, rfl⟩ := List.cons.inj ht
      exact Or.inl ⟨Nat.le_refl _, fun _ => ⟨by simp [Verbatim], rfl, rfl⟩⟩
    | cons b raw => exact Or.inl ⟨by simp, by simp⟩
  | plain hquote hslash hctl _ ih =>
    cases raw with
    | nil => exact absurd (List.cons.inj ht).1 hquote
    | cons b raw =>
      obtain ⟨rfl, htext⟩ := List.cons.inj ht
      obtain ⟨hle, heq⟩ | ⟨hraw, hs⟩ := ih htext
      · refine Or.inl ⟨by simpa using hle, fun hlen => ?_⟩
        obtain ⟨hverbatim, rfl, rfl⟩ := heq (by simpa using hlen)
        exact ⟨List.forall_mem_cons.mpr ⟨⟨hquote, hslash, hctl⟩, hverbatim⟩, rfl, rfl⟩
      · exact Or.inr ⟨by simp [List.getLast?_cons, hraw], by simp [List.getLast?_cons, hs]⟩
  | @escape t e t' s r hesc hrest ih =>
    match raw with
    | [] => simp at ht
    | [c] =>
      obtain ⟨rfl, rfl⟩ := List.cons.inj ht
      obtain ⟨rfl, rfl⟩ : [34] = e ∧ 44 :: 34 :: tail = t' := Prod.mk.inj (Option.some.inj hesc)
      cases hrest with
      | plain _ _ _ hclose =>
        cases hclose with
        | close => exact Or.inr ⟨rfl, rfl⟩
        | plain hquote => exact absurd rfl hquote
    | c :: d :: raw =>
      obtain ⟨rfl, rfl⟩ := List.cons.inj ht
      obtain ⟨v, u, rfl, rfl, hlen⟩ := escape_within hesc
      obtain ⟨hle, -⟩ | ⟨hraw, hs⟩ := ih rfl
      · have hshort : (e ++ s).length < (92 :: d :: (v ++ u)).length := by
          simp only [List.length_append, List.length_cons]
          omega
        exact Or.inl ⟨hshort.le, fun heq => absurd heq hshort.ne⟩
      · refine Or.inr ⟨?_, by simp [hs]⟩
        simp [List.getLast?_cons, List.getLast?_append, hraw]

/-- Only a verbatim string is read as itself in front of another member. -/
theorem strBody_self {raw tail r : List UInt8} (h : StrBody (raw ++ 34 :: 44 :: 34 :: tail) raw r) :
    Verbatim raw ∧ r = 44 :: 34 :: tail := by
  obtain ⟨-, heq⟩ | ⟨hslash, hcomma⟩ := strBody_front h rfl
  · obtain ⟨hverbatim, -, hr⟩ := heq rfl
    exact ⟨hverbatim, hr⟩
  · rw [hslash] at hcomma
    cases hcomma

end LiberalOS.Foundation
