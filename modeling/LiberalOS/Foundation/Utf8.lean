import Mathlib.Data.List.Basic

/-!
# UTF-8 text

Encoding of characters, and decoding that puts U+FFFD for what is ill-formed. The decoder takes one
character or one ill-formed part at a time: the longest start of a character, or else one byte.

## Main results

* `decodeReplace_utf8Encode` — what was encoded is decoded.
* `mem_utf8Encode_ascii` — an ASCII byte stands for itself only.
-/
namespace LiberalOS.Foundation

def utf8Encode (cs : List Char) : List UInt8 := cs.flatMap String.utf8EncodeChar

/-! ## Decoding -/

def isTail (b : UInt8) : Bool := 0x80 ≤ b && b ≤ 0xBF

/-- The second byte of a character with this first byte. -/
def isSecond (lead b : UInt8) : Bool :=
  if lead = 0xE0 then 0xA0 ≤ b && b ≤ 0xBF
  else if lead = 0xED then 0x80 ≤ b && b ≤ 0x9F
  else if lead = 0xF0 then 0x90 ≤ b && b ≤ 0xBF
  else if lead = 0xF4 then 0x80 ≤ b && b ≤ 0x8F
  else isTail b

/-- The length of the ill-formed part at the front of bytes that start with no character. -/
def illFormedLen : List UInt8 → Nat
  | a :: b :: c :: _ =>
    if 0xE0 ≤ a ∧ a ≤ 0xF4 ∧ isSecond a b then
      if 0xF0 ≤ a ∧ isTail c then 3 else 2
    else 1
  | [a, b] => if 0xE0 ≤ a ∧ a ≤ 0xF4 ∧ isSecond a b then 2 else 1
  | _ => 1

/-- Decode at most `fuel` parts. -/
def decodeParts : Nat → List UInt8 → List Char
  | 0, _ => []
  | _, [] => []
  | fuel + 1, bs =>
    match ByteArray.utf8DecodeChar? bs.toByteArray 0 with
    | some c => c :: decodeParts fuel (bs.drop c.utf8Size)
    | none => '\uFFFD' :: decodeParts fuel (bs.drop (illFormedLen bs))

/-- Decoding with errors replaced. Every part has a byte, so the length is fuel enough. -/
def decodeReplace (bs : List UInt8) : List Char := decodeParts bs.length bs

/-! ## The round trip -/

@[simp] theorem utf8Encode_nil : utf8Encode [] = [] := rfl

@[simp] theorem utf8Encode_cons (c : Char) (cs : List Char) :
    utf8Encode (c :: cs) = String.utf8EncodeChar c ++ utf8Encode cs := rfl

@[simp] theorem utf8Encode_append (cs ds : List Char) :
    utf8Encode (cs ++ ds) = utf8Encode cs ++ utf8Encode ds := List.flatMap_append

theorem length_le_utf8Encode (cs : List Char) : cs.length ≤ (utf8Encode cs).length := by
  induction cs with
  | nil => simp
  | cons c cs ih =>
    have hc := c.utf8Size_pos
    rw [utf8Encode_cons, List.length_append, String.length_utf8EncodeChar, List.length_cons]
    omega

theorem decodeParts_of_some {fuel : Nat} {bs : List UInt8} {c : Char} (hne : bs ≠ [])
    (hc : ByteArray.utf8DecodeChar? bs.toByteArray 0 = some c) :
    decodeParts (fuel + 1) bs = c :: decodeParts fuel (bs.drop c.utf8Size) := by
  rw [decodeParts, hc]
  exact hne

theorem decodeParts_utf8Encode {cs : List Char} {fuel : Nat} (hfuel : cs.length ≤ fuel) :
    decodeParts fuel (utf8Encode cs) = cs := by
  induction cs generalizing fuel with
  | nil => cases fuel <;> rfl
  | cons c cs ih =>
    obtain ⟨fuel, rfl⟩ : ∃ m, fuel = m + 1 := ⟨fuel - 1, by simp at hfuel; omega⟩
    have hne : utf8Encode (c :: cs) ≠ [] := by
      have hc := c.utf8Size_pos
      rw [utf8Encode_cons, ne_eq, List.append_eq_nil_iff, ← List.length_eq_zero_iff,
        String.length_utf8EncodeChar]
      omega
    have hfront : ByteArray.utf8DecodeChar? (utf8Encode (c :: cs)).toByteArray 0 = some c := by
      rw [utf8Encode_cons, List.toByteArray_append]
      exact ByteArray.utf8DecodeChar?_utf8EncodeChar_append
    have hdrop : (utf8Encode (c :: cs)).drop c.utf8Size = utf8Encode cs := by
      rw [utf8Encode_cons, ← String.length_utf8EncodeChar, List.drop_left]
    rw [decodeParts_of_some hne hfront, hdrop, ih (by simpa using hfuel)]

/-- What was encoded is decoded. -/
theorem decodeReplace_utf8Encode (cs : List Char) : decodeReplace (utf8Encode cs) = cs :=
  decodeParts_utf8Encode (length_le_utf8Encode cs)

-- a lone continuation byte, a cut character, and a character
example : decodeReplace [0x80, 0xE2, 0x82, 0x41] = ['\uFFFD', '\uFFFD', 'A'] := by decide

/-! ## ASCII -/

/-- The bytes of a character are its value, or all 128 or more. -/
theorem mem_utf8EncodeChar {b : UInt8} {c : Char} (h : b ∈ String.utf8EncodeChar c) :
    b.toNat = c.toNat ∨ 128 ≤ b.toNat := by
  change b.toNat = c.val.toNat ∨ 128 ≤ b.toNat
  simp only [String.utf8EncodeChar] at h
  split at h
  · obtain rfl := List.mem_singleton.mp h
    left
    rw [UInt8.toNat_ofNat']
    omega
  · right
    split at h
    · simp only [List.mem_cons, List.not_mem_nil, or_false] at h
      rcases h with rfl | rfl <;> rw [UInt8.toNat_ofNat'] <;> omega
    · split at h
      · simp only [List.mem_cons, List.not_mem_nil, or_false] at h
        rcases h with rfl | rfl | rfl <;> rw [UInt8.toNat_ofNat'] <;> omega
      · simp only [List.mem_cons, List.not_mem_nil, or_false] at h
        rcases h with rfl | rfl | rfl | rfl <;> rw [UInt8.toNat_ofNat'] <;> omega

/-- An ASCII byte is the encoding of its character. -/
theorem utf8EncodeChar_ascii {b : UInt8} (hb : b < 128) :
    String.utf8EncodeChar (Char.ofNat b.toNat) = [b] := by
  have hb' : b.toNat < 128 := hb
  have hvalid : b.toNat.isValidChar := Or.inl (by omega)
  have hval : (Char.ofNat b.toNat).val.toNat = b.toNat := by
    rw [Char.ofNat, dif_pos hvalid]
    rfl
  rw [String.utf8EncodeChar]
  simp only [hval]
  rw [if_pos (by omega), UInt8.ofNat_toNat]

theorem eq_of_mem_utf8EncodeChar {b : UInt8} (hb : b < 128) {c : Char}
    (h : b ∈ String.utf8EncodeChar c) : c = Char.ofNat b.toNat := by
  have hb' : b.toNat < 128 := hb
  rcases mem_utf8EncodeChar h with hval | hval
  · rw [hval, Char.ofNat_toNat]
  · omega

/-- An ASCII byte in a text stands for its character. -/
theorem mem_utf8Encode_ascii {b : UInt8} (hb : b < 128) (cs : List Char) :
    b ∈ utf8Encode cs ↔ Char.ofNat b.toNat ∈ cs := by
  rw [utf8Encode, List.mem_flatMap]
  constructor
  · rintro ⟨c, hc, hmem⟩
    rwa [← eq_of_mem_utf8EncodeChar hb hmem]
  · intro hc
    exact ⟨_, hc, by simp [utf8EncodeChar_ascii hb]⟩

/-- The test for ASCII bytes, for bytes that are given. -/
theorem ascii_of_all {as : List UInt8} (h : as.all (· < 128) = true) : ∀ b ∈ as, b < 128 :=
  fun b hb => of_decide_eq_true (List.all_eq_true.mp h b hb)

/-- The text of ASCII bytes. -/
def asciiText (bs : List UInt8) : List Char := bs.map fun b => Char.ofNat b.toNat

theorem utf8Encode_asciiText {bs : List UInt8} (h : ∀ b ∈ bs, b < 128) :
    utf8Encode (asciiText bs) = bs := by
  induction bs with
  | nil => rfl
  | cons b bs ih =>
    obtain ⟨hb, hbs⟩ := List.forall_mem_cons.mp h
    change String.utf8EncodeChar (Char.ofNat b.toNat) ++ utf8Encode (asciiText bs) = b :: bs
    rw [utf8EncodeChar_ascii hb, ih hbs]
    rfl

/-- A text that starts with an ASCII byte starts with its character. -/
theorem utf8Encode_eq_cons {b : UInt8} (hb : b < 128) {cs : List Char} {bs : List UInt8}
    (h : utf8Encode cs = b :: bs) : ∃ ds, cs = Char.ofNat b.toNat :: ds ∧ utf8Encode ds = bs := by
  cases cs with
  | nil => simp at h
  | cons c cs =>
    have hmem : b ∈ String.utf8EncodeChar c := by
      cases hc : String.utf8EncodeChar c with
      | nil =>
        have hsize := String.length_utf8EncodeChar c
        have hpos := c.utf8Size_pos
        simp only [hc, List.length_nil] at hsize
        omega
      | cons d ds =>
        rw [utf8Encode_cons, hc, List.cons_append] at h
        exact (List.cons.inj h).1 ▸ List.mem_cons_self
    obtain rfl := eq_of_mem_utf8EncodeChar hb hmem
    rw [utf8Encode_cons, utf8EncodeChar_ascii hb] at h
    exact ⟨cs, rfl, (List.cons.inj h).2⟩

theorem utf8Encode_eq_append {as : List UInt8} (has : ∀ b ∈ as, b < 128) {cs : List Char}
    {bs : List UInt8} (h : utf8Encode cs = as ++ bs) :
    ∃ ds, cs = asciiText as ++ ds ∧ utf8Encode ds = bs := by
  induction as generalizing cs with
  | nil => exact ⟨cs, rfl, h⟩
  | cons b as ih =>
    obtain ⟨hb, has⟩ := List.forall_mem_cons.mp has
    obtain ⟨ds, rfl, hds⟩ := utf8Encode_eq_cons hb h
    obtain ⟨es, rfl, hes⟩ := ih has hds
    exact ⟨es, rfl, hes⟩

end LiberalOS.Foundation
