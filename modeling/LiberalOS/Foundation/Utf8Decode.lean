import LiberalOS.Foundation.Utf8
import Mathlib.Data.List.Infix

/-!
# Decoding bytes that may be ill-formed

The decoder of `Utf8` part by part. An ASCII byte is never part of anything else, so searching and
splitting at ASCII characters gives the same before and after decoding.

## Main results

* `decodeReplace_append_ascii` — splitting at an ASCII byte.
* `utf8Encode_decodeReplace_iff` — the bytes that survive decoding and encoding.
-/
namespace LiberalOS.Foundation

/-! ## Decoding part by part -/

theorem utf8DecodeChar?_eq_some_iff {bs : List UInt8} {c : Char} :
    ByteArray.utf8DecodeChar? bs.toByteArray 0 = some c ↔ String.utf8EncodeChar c <+: bs := by
  constructor
  · intro h
    obtain ⟨rest, hrest⟩ := ByteArray.exists_of_utf8DecodeChar?_eq_some h
    have hdata := congrArg (fun b => b.data.toList) hrest
    simp only [List.data_toByteArray, ByteArray.data_append, Array.toList_append] at hdata
    exact ⟨rest.data.toList, hdata.symm⟩
  · rintro ⟨rest, rfl⟩
    rw [List.toByteArray_append]
    exact ByteArray.utf8DecodeChar?_utf8EncodeChar_append

theorem illFormedLen_pos (bs : List UInt8) : 0 < illFormedLen bs := by
  fun_cases illFormedLen bs <;> simp

/-- More fuel than bytes changes nothing. -/
theorem decodeParts_eq {fuel : Nat} {bs : List UInt8} (h : bs.length ≤ fuel) :
    decodeParts fuel bs = decodeReplace bs := by
  have hstable : ∀ n fuel (bs : List UInt8), bs.length ≤ n → bs.length ≤ fuel →
      decodeParts fuel bs = decodeParts n bs := by
    intro n
    induction n with
    | zero => grind [decodeParts]
    | succ n ih =>
      intro fuel bs hn hfuel
      have hill := illFormedLen_pos bs
      have hsize (c : Char) := c.utf8Size_pos
      cases bs with
      | nil => cases fuel <;> rfl
      | cons b bs =>
        obtain ⟨fuel, rfl⟩ : ∃ m, fuel = m + 1 := ⟨fuel - 1, by simp at hfuel; omega⟩
        rw [decodeParts, decodeParts]
        · grind
        · simp
        · simp
  exact hstable _ _ _ le_rfl h

@[simp] theorem decodeReplace_nil : decodeReplace [] = [] := rfl

/-- A character at the front. -/
theorem decodeReplace_char (c : Char) (bs : List UInt8) :
    decodeReplace (String.utf8EncodeChar c ++ bs) = c :: decodeReplace bs := by
  have hlen : (String.utf8EncodeChar c).length = c.utf8Size := String.length_utf8EncodeChar c
  have hpos := c.utf8Size_pos
  have hne : String.utf8EncodeChar c ++ bs ≠ [] := by
    rw [ne_eq, ← List.length_eq_zero_iff, List.length_append]
    omega
  have hfuel : (String.utf8EncodeChar c ++ bs).length ≤ c.utf8Size + bs.length - 1 + 1 := by
    rw [List.length_append]
    omega
  rw [← decodeParts_eq hfuel, decodeParts_of_some hne
    (utf8DecodeChar?_eq_some_iff.mpr (List.prefix_append _ _)), ← hlen, List.drop_left]
  exact congrArg _ (decodeParts_eq (by omega))

/-- An ill-formed part at the front. -/
theorem decodeReplace_illFormed {bs : List UInt8} (hne : bs ≠ [])
    (hnone : ByteArray.utf8DecodeChar? bs.toByteArray 0 = none) :
    decodeReplace bs = '\uFFFD' :: decodeReplace (bs.drop (illFormedLen bs)) := by
  have hill := illFormedLen_pos bs
  have hpos := List.length_pos_iff.mpr hne
  have hfuel : bs.length ≤ bs.length - 1 + 1 := by omega
  rw [← decodeParts_eq hfuel, decodeParts, hnone]
  · exact congrArg _ (decodeParts_eq (by rw [List.length_drop]; omega))
  · exact hne

theorem decodeReplace_ascii {b : UInt8} (hb : b < 128) (bs : List UInt8) :
    decodeReplace (b :: bs) = Char.ofNat b.toNat :: decodeReplace bs := by
  have h := decodeReplace_char (Char.ofNat b.toNat) bs
  rwa [utf8EncodeChar_ascii hb] at h

/-! ## ASCII bytes among others -/

/-- An ill-formed part ends before an ASCII byte. -/
theorem illFormedLen_append {b : UInt8} (hb : b < 128) {as : List UInt8} (hne : as ≠ [])
    (cs : List UInt8) :
    illFormedLen (as ++ b :: cs) = illFormedLen as ∧ illFormedLen as ≤ as.length := by
  have hb' : b.toNat < 128 := hb
  have htail : isTail b = false := by
    simp only [isTail, Bool.and_eq_false_imp, decide_eq_true_eq, decide_eq_false_iff_not]
    intro h
    have h' : 128 ≤ b.toNat := h
    omega
  have hsecond (a : UInt8) : isSecond a b = false := by
    have hlow (x : UInt8) (hx : 128 ≤ x.toNat) : ¬ x ≤ b := by
      intro h
      have h' : x.toNat ≤ b.toNat := h
      omega
    rw [isSecond]
    split_ifs <;> simp [htail, hlow]
  match as with
  | [a] => cases cs <;> simp [illFormedLen, hsecond]
  | [a, a'] =>
    simp only [List.cons_append, List.nil_append, illFormedLen, htail]
    split_ifs <;> simp_all
  | a :: a' :: a'' :: as =>
    simp only [List.cons_append, illFormedLen, List.length_cons]
    split_ifs <;> simp

/-- A character that ends behind an ASCII byte starts there. -/
theorem utf8EncodeChar_prefix_append {b : UInt8} (hb : b < 128) {as : List UInt8} (hne : as ≠ [])
    {c : Char} {cs : List UInt8} (h : String.utf8EncodeChar c <+: as ++ b :: cs) :
    String.utf8EncodeChar c <+: as := by
  rcases List.prefix_or_prefix_of_prefix h (List.prefix_append as (b :: cs)) with hshort | hlong
  · exact hshort
  · obtain ⟨rest, hrest⟩ := hlong
    cases rest with
    | nil => simp [← hrest]
    | cons d rest =>
      have hd : d = b := by
        rw [← hrest, List.prefix_append_right_inj] at h
        obtain ⟨more, hmore⟩ := h
        exact (List.cons.inj hmore).1
      subst hd
      have hmem : d ∈ String.utf8EncodeChar c := hrest ▸ by simp
      have hc := eq_of_mem_utf8EncodeChar hb hmem
      rw [hc, utf8EncodeChar_ascii hb] at hrest
      have hlen := congrArg List.length hrest
      have hpos := List.length_pos_iff.mpr hne
      simp at hlen
      omega

/-- Induction over the parts that are decoded one after the other. -/
theorem decode_induction {motive : List UInt8 → Prop} (nil : motive [])
    (char : ∀ c bs, motive bs → motive (String.utf8EncodeChar c ++ bs))
    (illFormed : ∀ bs, bs ≠ [] → ByteArray.utf8DecodeChar? bs.toByteArray 0 = none →
      motive (bs.drop (illFormedLen bs)) → motive bs) (bs : List UInt8) : motive bs := by
  induction hlen : bs.length using Nat.strong_induction_on generalizing bs with
  | h n ih =>
    subst hlen
    by_cases hne : bs = []
    · exact hne ▸ nil
    · have hpos := List.length_pos_iff.mpr hne
      cases hfront : ByteArray.utf8DecodeChar? bs.toByteArray 0 with
      | some c =>
        obtain ⟨rest, rfl⟩ := utf8DecodeChar?_eq_some_iff.mp hfront
        have hsize := c.utf8Size_pos
        refine char c rest (ih _ ?_ rest rfl)
        rw [List.length_append, String.length_utf8EncodeChar]
        omega
      | none =>
        have hill := illFormedLen_pos bs
        exact illFormed bs hne hfront (ih _ (by rw [List.length_drop]; omega) _ rfl)

/-- An ASCII byte is decoded by itself, whatever stands around it. -/
theorem decodeReplace_append_ascii {b : UInt8} (hb : b < 128) (as cs : List UInt8) :
    decodeReplace (as ++ b :: cs) =
      decodeReplace as ++ Char.ofNat b.toNat :: decodeReplace cs := by
  induction as using decode_induction with
  | nil => exact decodeReplace_ascii hb cs
  | char c as ih =>
    rw [List.append_assoc, decodeReplace_char, decodeReplace_char, ih, List.cons_append]
  | illFormed as hne hnone ih =>
    have hnone' : ByteArray.utf8DecodeChar? (as ++ b :: cs).toByteArray 0 = none := by
      refine Option.eq_none_iff_forall_ne_some.mpr fun c hc => ?_
      have hpre := utf8EncodeChar_prefix_append hb hne (utf8DecodeChar?_eq_some_iff.mp hc)
      rw [utf8DecodeChar?_eq_some_iff.mpr hpre] at hnone
      cases hnone
    obtain ⟨heq, hle⟩ := illFormedLen_append hb hne cs
    rw [decodeReplace_illFormed (by simp) hnone', decodeReplace_illFormed hne hnone, heq,
      List.drop_append_of_le_length hle, ih, List.cons_append]

theorem ascii_ne_replacement {b : UInt8} (hb : b < 128) : Char.ofNat b.toNat ≠ '\uFFFD' := by
  intro h
  have hbytes := utf8EncodeChar_ascii hb
  rw [h] at hbytes
  have hlen : (String.utf8EncodeChar '\uFFFD').length = 3 := by decide
  rw [hbytes] at hlen
  cases hlen

/-- An ASCII character of the text is a byte. -/
theorem mem_decodeReplace_ascii {b : UInt8} (hb : b < 128) (bs : List UInt8) :
    Char.ofNat b.toNat ∈ decodeReplace bs ↔ b ∈ bs := by
  constructor
  · intro h
    induction bs using decode_induction with
    | nil => cases h
    | char c bs ih =>
      rw [decodeReplace_char] at h
      rcases List.mem_cons.mp h with rfl | hrest
      · simp [utf8EncodeChar_ascii hb]
      · exact List.mem_append_right _ (ih hrest)
    | illFormed bs hne hnone ih =>
      rw [decodeReplace_illFormed hne hnone] at h
      rcases List.mem_cons.mp h with hc | hrest
      · exact absurd hc (ascii_ne_replacement hb)
      · exact List.mem_of_mem_drop (ih hrest)
  · intro h
    obtain ⟨as, cs, rfl⟩ := List.append_of_mem h
    simp [decodeReplace_append_ascii hb]

/-- A text starts with an ASCII character exactly if the bytes start with it. -/
theorem decodeReplace_eq_cons {b : UInt8} (hb : b < 128) {bs : List UInt8} {cs : List Char}
    (h : decodeReplace bs = Char.ofNat b.toNat :: cs) :
    ∃ rest, bs = b :: rest ∧ decodeReplace rest = cs := by
  cases bs using decode_induction with
  | nil => cases h
  | char c bs =>
    rw [decodeReplace_char] at h
    obtain ⟨rfl, rfl⟩ := List.cons.inj h
    exact ⟨bs, by rw [utf8EncodeChar_ascii hb]; rfl, rfl⟩
  | illFormed bs hne hnone =>
    rw [decodeReplace_illFormed hne hnone] at h
    exact absurd (List.cons.inj h).1.symm (ascii_ne_replacement hb)

section

variable {as : List UInt8} (has : ∀ b ∈ as, b < 128)
include has

theorem decodeReplace_asciiText_append (bs : List UInt8) :
    decodeReplace (as ++ bs) = asciiText as ++ decodeReplace bs := by
  induction as with
  | nil => rfl
  | cons b as ih =>
    obtain ⟨hb, has⟩ := List.forall_mem_cons.mp has
    rw [List.cons_append, decodeReplace_ascii hb, ih has]
    rfl

theorem decodeReplace_eq_append {bs : List UInt8} {cs : List Char}
    (h : decodeReplace bs = asciiText as ++ cs) :
    ∃ rest, bs = as ++ rest ∧ decodeReplace rest = cs := by
  induction as generalizing bs with
  | nil => exact ⟨bs, rfl, h⟩
  | cons b as ih =>
    obtain ⟨hb, has⟩ := List.forall_mem_cons.mp has
    obtain ⟨rest, rfl, hrest⟩ := decodeReplace_eq_cons hb h
    obtain ⟨more, rfl, hmore⟩ := ih has hrest
    exact ⟨more, rfl, hmore⟩

/-- Looking for an ASCII prefix in the text or in the bytes is the same. -/
theorem asciiText_prefix_decodeReplace (bs : List UInt8) :
    asciiText as <+: decodeReplace bs ↔ as <+: bs := by
  constructor
  · rintro ⟨cs, hcs⟩
    obtain ⟨rest, rfl, -⟩ := decodeReplace_eq_append has hcs.symm
    exact List.prefix_append _ _
  · rintro ⟨rest, rfl⟩
    exact ⟨_, (decodeReplace_asciiText_append has rest).symm⟩

theorem decodeReplace_eq_asciiText_iff (bs : List UInt8) :
    decodeReplace bs = asciiText as ↔ bs = as := by
  constructor
  · intro h
    obtain ⟨rest, rfl, hrest⟩ := decodeReplace_eq_append has (h.trans (List.append_nil _).symm)
    cases rest using decode_induction with
    | nil => simp
    | char c rest => simp [decodeReplace_char] at hrest
    | illFormed rest hne hnone => simp [decodeReplace_illFormed hne hnone] at hrest
  · rintro rfl
    simpa using decodeReplace_asciiText_append has []

end

/-! ## Well-formed bytes -/

/-- The bytes are the encoding of a text. -/
def IsUtf8 (bs : List UInt8) : Prop := ∃ cs, bs = utf8Encode cs

/-- Well-formed bytes come back from decoding and encoding, and no others. -/
theorem utf8Encode_decodeReplace_iff (bs : List UInt8) :
    utf8Encode (decodeReplace bs) = bs ↔ IsUtf8 bs := by
  constructor
  · exact fun h => ⟨_, h.symm⟩
  · rintro ⟨cs, rfl⟩
    rw [decodeReplace_utf8Encode]

instance (bs : List UInt8) : Decidable (IsUtf8 bs) :=
  decidable_of_iff _ (utf8Encode_decodeReplace_iff bs)

end LiberalOS.Foundation
