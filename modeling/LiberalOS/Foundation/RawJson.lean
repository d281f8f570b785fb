import Mathlib.Data.List.Forall2
import LiberalOS.Foundation.Json

/-!
# JSON that is written without escapes

A writer that puts strings between quotes as they are. What it writes is read back as it was meant
exactly if the strings are clean, because a string that is not clean is not read as itself.

## Main results

* `parsesMembers_clean_iff`, `clean_of_parsesMembers` — the members of an object.
* `isJson_array_iff` — a document with one value for each item.
-/
namespace LiberalOS.Foundation

/-! ## Objects -/

/-- The text of a number. -/
structure NumText where
  text : List UInt8
  valid : isNumber text = true
  numByte : ∀ b ∈ text, isNumByte b = true

/-- Digits without a leading zero are a number, also with a sign. -/
theorem isNumber_digits {d : UInt8} {t : List UInt8} (hd : isDigit d = true)
    (ht : ∀ b ∈ t, isDigit b = true) (hzero : d = 48 → t = []) (neg : Bool) :
    isNumber ((if neg = true then [45] else []) ++ d :: t) = true := by
  have hsign : isNumber ((if neg = true then [45] else []) ++ d :: t) = isUnsigned (d :: t) := by
    cases neg with
    | true => rfl
    | false =>
      refine congrArg isUnsigned (if_neg fun h => ?_)
      obtain rfl := Option.some.inj h
      cases hd
  rw [hsign, isUnsigned, List.dropWhile_eq_nil_iff.mpr ht, hd]
  split
  · next h =>
    rw [hzero h]
    rfl
  · rfl

theorem isNumByte_digits {d : UInt8} {t : List UInt8} (hd : isDigit d = true)
    (ht : ∀ b ∈ t, isDigit b = true) (neg : Bool) :
    ∀ b ∈ (if neg = true then [45] else []) ++ d :: t, isNumByte b = true := by
  have hdigit {c : UInt8} (hc : isDigit c = true) : isNumByte c = true := by simp [isNumByte, hc]
  intro b hb
  obtain hb | hb := List.mem_append.mp hb
  · cases neg with
    | true => exact List.mem_singleton.mp hb ▸ rfl
    | false => cases hb
  · obtain rfl | hb := List.mem_cons.mp hb
    · exact hdigit hd
    · exact hdigit (ht b hb)

/-- A value that is written as it is. -/
inductive RawValue where
  | num (n : NumText)
  | str (bytes : List UInt8)

def RawValue.text : RawValue → List UInt8
  | num n => n.text
  | str bytes => 34 :: (bytes ++ [34])

def RawValue.json : RawValue → Json
  | num n => .num n.text
  | str bytes => .str bytes

def memberText (k : List UInt8) (v : RawValue) : List UInt8 := 34 :: (k ++ 34 :: 58 :: v.text)

/-- The members of an object that ends with a number. -/
def membersText (ms : List (List UInt8 × RawValue)) (k : List UInt8) (n : NumText) : List UInt8 :=
  ms.foldr (fun m t => memberText m.1 m.2 ++ 44 :: t) (memberText k (.num n))

def membersJson (ms : List (List UInt8 × RawValue)) (k : List UInt8) (n : NumText) :
    List (List UInt8 × Json) :=
  ms.map (fun m => (m.1, m.2.json)) ++ [(k, .num n.text)]

theorem memberText_num_append (k : List UInt8) (n : NumText) (t : List UInt8) :
    memberText k (.num n) ++ t = 34 :: (k ++ 34 :: 58 :: (n.text ++ t)) := by
  simp [memberText, RawValue.text]

theorem memberText_str_append (k s t : List UInt8) :
    memberText k (.str s) ++ t = 34 :: (k ++ 34 :: 58 :: 34 :: (s ++ 34 :: t)) := by
  simp [memberText, RawValue.text]

theorem membersText_nil (k : List UInt8) (n : NumText) :
    membersText [] k n = memberText k (.num n) := rfl

@[simp] theorem skipSpace_cons {b : UInt8} (h : isSpace b = false) (t : List UInt8) :
    skipSpace (b :: t) = b :: t := by
  simp [skipSpace, h]

theorem skipSpace_cons_inj {b c : UInt8} (hb : isSpace b = false) {t u : List UInt8}
    (h : skipSpace (b :: t) = c :: u) : b = c ∧ t = u :=
  List.cons.inj ((skipSpace_cons hb t).symm.trans h)

theorem NumText.exists_cons (n : NumText) : ∃ b t, n.text = b :: t ∧ isNumByte b = true := by
  cases h : n.text with
  | nil =>
    have := n.valid
    rw [h] at this
    cases this
  | cons b t => exact ⟨b, t, rfl, n.numByte b (h ▸ List.mem_cons_self)⟩

theorem parsesValue_num_iff (n : NumText) {c : UInt8} (hc : isNumByte c = false)
    {t r : List UInt8} {v : Json} :
    ParsesValue (n.text ++ c :: t) v r ↔ v = .num n.text ∧ r = c :: t := by
  obtain ⟨b, t', hb, hnum⟩ := n.exists_cons
  have hspace : isSpace b = false := by
    revert hnum
    simp only [isNumByte, isDigit, isSpace]
    grind
  have hskip : skipSpace (n.text ++ c :: t) = n.text ++ c :: t := by
    rw [hb]
    exact skipSpace_cons hspace _
  have hne {d : UInt8} {u : List UInt8} (h : skipSpace (n.text ++ c :: t) = d :: u) :
      isNumByte d = true := by
    rw [hskip, hb] at h
    exact (List.cons.inj h).1 ▸ hnum
  have htake : (n.text ++ c :: t).takeWhile isNumByte = n.text := by
    rw [List.takeWhile_append_of_pos n.numByte]
    simp [hc]
  have hdrop : (n.text ++ c :: t).dropWhile isNumByte = c :: t := by
    rw [List.dropWhile_append_of_pos n.numByte]
    simp [hc]
  constructor
  · intro h
    cases h with
    | num h => exact ⟨by rw [hskip, htake], by rw [hskip, hdrop]⟩
    | null h | true h | false h | str h | emptyArr h | arr h | emptyObj h | obj h => cases hne h
  · rintro ⟨rfl, rfl⟩
    have h := @ParsesValue.num (n.text ++ c :: t) (by rw [hskip, htake]; exact n.valid)
    rwa [hskip, htake, hdrop] at h

theorem parsesValue_quote_iff {t r : List UInt8} {v : Json} :
    ParsesValue (34 :: t) v r ↔ ∃ s, v = .str s ∧ StrBody t s r ∧ IsUtf8 s := by
  have hskip : skipSpace (34 :: t) = 34 :: t := skipSpace_cons rfl t
  constructor
  · intro h
    cases h with
    | str ht hbody hutf8 =>
      obtain ⟨-, rfl⟩ := skipSpace_cons_inj rfl ht
      exact ⟨_, rfl, hbody, hutf8⟩
    | num h | null h | true h | false h | emptyArr h | arr h | emptyObj h | obj h =>
      rw [hskip] at h
      cases h
  · rintro ⟨s, rfl, hbody, hutf8⟩
    exact .str hskip hbody hutf8

theorem parsesValue_object_iff {t r : List UInt8} {v : Json} :
    ParsesValue (123 :: 34 :: t) v r ↔ ∃ ms, v = .obj ms ∧ ParsesMembers (34 :: t) ms r := by
  have hskip : skipSpace (123 :: 34 :: t) = 123 :: 34 :: t := skipSpace_cons rfl _
  constructor
  · intro h
    cases h with
    | obj ht hms =>
      obtain ⟨-, rfl⟩ := skipSpace_cons_inj rfl ht
      exact ⟨_, rfl, hms⟩
    | emptyObj ht hclose =>
      obtain ⟨-, rfl⟩ := skipSpace_cons_inj rfl ht
      cases (skipSpace_cons_inj rfl hclose).1
    | num h | null h | true h | false h | str h | emptyArr h | arr h =>
      rw [hskip] at h
      cases h
  · rintro ⟨ms, rfl, hms⟩
    exact .obj hskip hms

/-- A member with a clean name. -/
theorem parsesMember_iff {k : List UInt8} (hk : Clean k) {t r : List UInt8}
    {m : List UInt8 × Json} :
    ParsesMember (34 :: (k ++ 34 :: 58 :: t)) m r ↔ ∃ v, m = (k, v) ∧ ParsesValue t v r := by
  constructor
  · rintro ⟨hquote, hname, -, hcolon, hvalue⟩
    obtain ⟨-, rfl⟩ := skipSpace_cons_inj rfl hquote
    obtain ⟨rfl, rfl⟩ := (strBody_verbatim_iff hk.2).mp hname
    obtain ⟨-, rfl⟩ := skipSpace_cons_inj rfl hcolon
    exact ⟨_, rfl, hvalue⟩
  · rintro ⟨v, rfl, hvalue⟩
    exact .mk (skipSpace_cons rfl _) ((strBody_verbatim_iff hk.2).mpr ⟨rfl, rfl⟩) hk.1
      (skipSpace_cons rfl _) hvalue

theorem parsesMember_num_iff {k : List UInt8} (hk : Clean k) (n : NumText) {c : UInt8}
    (hc : isNumByte c = false) {t r : List UInt8} {m : List UInt8 × Json} :
    ParsesMember (memberText k (.num n) ++ c :: t) m r ↔ m = (k, .num n.text) ∧ r = c :: t := by
  simp only [memberText_num_append, parsesMember_iff hk, parsesValue_num_iff n hc]
  grind

theorem parsesMember_str_iff {k raw : List UInt8} (hk : Clean k) (hraw : Clean raw)
    {t r : List UInt8} {m : List UInt8 × Json} :
    ParsesMember (memberText k (.str raw) ++ t) m r ↔ m = (k, .str raw) ∧ r = t := by
  simp only [memberText_str_append, parsesMember_iff hk, parsesValue_quote_iff,
    strBody_verbatim_iff hraw.2]
  grind [hraw.1]

/-- A member whose value, if it is a string, is clean. -/
theorem parsesMember_raw_iff {k : List UInt8} (hk : Clean k) {v : RawValue}
    (hv : ∀ b, v = .str b → Clean b) {t r : List UInt8} {m : List UInt8 × Json} :
    ParsesMember (memberText k v ++ 44 :: t) m r ↔ m = (k, v.json) ∧ r = 44 :: t := by
  cases v with
  | num n => exact parsesMember_num_iff hk n rfl
  | str b => exact parsesMember_str_iff hk (hv b rfl)

/-- A member that can only be read in one way, in front of another one. -/
theorem parsesMembers_comma_iff {t t₀ r : List UInt8} {m₀ : List UInt8 × Json}
    {ms : List (List UInt8 × Json)}
    (hmember : ∀ m t', ParsesMember t m t' ↔ m = m₀ ∧ t' = 44 :: t₀) :
    ParsesMembers t ms r ↔ ∃ ms', ms = m₀ :: ms' ∧ ParsesMembers t₀ ms' r := by
  constructor
  · intro h
    cases h with
    | last hm hclose =>
      obtain ⟨-, rfl⟩ := (hmember _ _).mp hm
      cases (skipSpace_cons_inj rfl hclose).1
    | cons hm hcomma hms =>
      obtain ⟨rfl, rfl⟩ := (hmember _ _).mp hm
      obtain ⟨-, rfl⟩ := skipSpace_cons_inj rfl hcomma
      exact ⟨_, rfl, hms⟩
  · rintro ⟨ms', rfl, hms⟩
    exact .cons ((hmember _ _).mpr ⟨rfl, rfl⟩) (skipSpace_cons rfl _) hms

/-- A number at the end of an object. -/
theorem parsesMembers_last_iff {k : List UInt8} (hk : Clean k) (n : NumText) {t r : List UInt8}
    {ms : List (List UInt8 × Json)} :
    ParsesMembers (memberText k (.num n) ++ 125 :: t) ms r ↔ ms = [(k, .num n.text)] ∧ r = t := by
  have hmember {m t'} := @parsesMember_num_iff k hk n 125 rfl t t' m
  constructor
  · intro h
    cases h with
    | last hm hclose =>
      obtain ⟨rfl, rfl⟩ := hmember.mp hm
      exact ⟨rfl, (skipSpace_cons_inj rfl hclose).2.symm⟩
    | cons hm hcomma _ =>
      obtain ⟨-, rfl⟩ := hmember.mp hm
      cases (skipSpace_cons_inj rfl hcomma).1
  · rintro ⟨rfl, rfl⟩
    exact .last (hmember.mpr ⟨rfl, rfl⟩) (skipSpace_cons rfl _)

/-- Any string in front of another member: if every member of its name has it as its value, it is
clean. -/
theorem clean_of_parsesMembers_str {k raw t r : List UInt8} (hk : Clean k)
    {ms : List (List UInt8 × Json)}
    (h : ParsesMembers (memberText k (.str raw) ++ 44 :: 34 :: t) ms r)
    (hself : ∀ v, (k, v) ∈ ms → v = .str raw) : Clean raw := by
  obtain ⟨m, t', ms', hm, rfl⟩ : ∃ m t' ms',
      ParsesMember (memberText k (.str raw) ++ 44 :: 34 :: t) m t' ∧ ms = m :: ms' := by
    cases h with
    | last hm _ => exact ⟨_, _, _, hm, rfl⟩
    | cons hm _ _ => exact ⟨_, _, _, hm, rfl⟩
  simp only [memberText_str_append, parsesMember_iff hk, parsesValue_quote_iff] at hm
  obtain ⟨v, rfl, s, rfl, hbody, hutf8⟩ := hm
  obtain rfl := Json.str.inj (hself _ List.mem_cons_self)
  exact ⟨hutf8, (strBody_self hbody).1⟩

theorem membersText_cons (m : List UInt8 × RawValue) (ms : List (List UInt8 × RawValue))
    (k : List UInt8) (n : NumText) (t : List UInt8) :
    membersText (m :: ms) k n ++ t = memberText m.1 m.2 ++ 44 :: (membersText ms k n ++ t) := by
  simp [membersText]

/-- There is always another member before the end. -/
theorem exists_membersText (ms : List (List UInt8 × RawValue)) (k : List UInt8) (n : NumText)
    (t : List UInt8) : ∃ u, membersText ms k n ++ t = 34 :: u := by
  cases ms <;> exact ⟨_, rfl⟩

/-- An object without escapes whose strings are clean. -/
theorem parsesMembers_clean_iff {ms : List (List UInt8 × RawValue)} {k : List UInt8} {n : NumText}
    (hk : Clean k) (hkeys : ∀ m ∈ ms, Clean m.1)
    (hclean : ∀ m ∈ ms, ∀ b, m.2 = .str b → Clean b) {t r : List UInt8}
    {js : List (List UInt8 × Json)} :
    ParsesMembers (membersText ms k n ++ 125 :: t) js r ↔ js = membersJson ms k n ∧ r = t := by
  induction ms generalizing js with
  | nil => exact parsesMembers_last_iff hk n
  | cons m ms ih =>
    obtain ⟨key, value⟩ := m
    obtain ⟨hkey, hkeys⟩ := List.forall_mem_cons.mp hkeys
    obtain ⟨hvalue, hclean⟩ := List.forall_mem_cons.mp hclean
    rw [membersText_cons, parsesMembers_comma_iff fun _ _ => parsesMember_raw_iff hkey hvalue]
    simp only [ih hkeys hclean, membersJson, List.map_cons, List.cons_append]
    grind

/-- An object without escapes: the strings that every member of their name has as its value are
clean, if the others are. -/
theorem clean_of_parsesMembers {ms : List (List UInt8 × RawValue)} {k : List UInt8} {n : NumText}
    (hkeys : ∀ m ∈ ms, Clean m.1) {t r : List UInt8} {js : List (List UInt8 × Json)}
    (h : ParsesMembers (membersText ms k n ++ 125 :: t) js r)
    (hself : ∀ m ∈ ms, ∀ b, m.2 = .str b → Clean b ∨ ∀ v, (m.1, v) ∈ js → v = .str b) :
    ∀ m ∈ ms, ∀ b, m.2 = .str b → Clean b := by
  induction ms generalizing js with
  | nil => exact List.forall_mem_nil _
  | cons m ms ih =>
    obtain ⟨key, value⟩ := m
    obtain ⟨hkey, hkeys⟩ := List.forall_mem_cons.mp hkeys
    obtain ⟨hhead, hself⟩ := List.forall_mem_cons.mp hself
    rw [membersText_cons] at h
    have hvalue : ∀ b, value = .str b → Clean b := by
      rintro b rfl
      obtain ⟨u, hu⟩ := exists_membersText ms k n (125 :: t)
      rw [hu] at h
      exact (hhead b rfl).elim id (clean_of_parsesMembers_str hkey h)
    obtain ⟨js', rfl, hrest⟩ :=
      (parsesMembers_comma_iff fun _ _ => parsesMember_raw_iff hkey hvalue).mp h
    refine List.forall_mem_cons.mpr ⟨hvalue, ih hkeys hrest fun m hm b hb => ?_⟩
    exact (hself m hm b hb).imp id fun hall v hv => hall v (List.mem_cons_of_mem _ hv)

theorem isNumByte_printable {b : UInt8} (h : isNumByte b = true) : 32 ≤ b := by
  simp only [isNumByte, isDigit, Bool.or_eq_true, Bool.and_eq_true, decide_eq_true_eq,
    beq_iff_eq] at h
  obtain ((((⟨hlow, -⟩ | rfl) | rfl) | rfl) | rfl) | rfl := h
  · exact UInt8.le_trans (by decide) hlow
  all_goals decide

theorem memberText_printable {k : List UInt8} (hk : Verbatim k) {v : RawValue}
    (hv : ∀ b, v = .str b → Verbatim b) : ∀ b ∈ memberText k v, 32 ≤ b := by
  have hvalue : ∀ b ∈ v.text, 32 ≤ b := by
    cases v with
    | num n => exact fun b hb => isNumByte_printable (n.numByte b hb)
    | str s =>
      have hverbatim := hv s rfl
      simp only [RawValue.text, List.mem_cons, List.mem_append]
      rintro b (rfl | hb | rfl | hb)
      · decide
      · exact (hverbatim b hb).2.2
      · decide
      · cases hb
  simp only [memberText, List.mem_cons, List.mem_append]
  rintro b (rfl | hb | rfl | rfl | hb)
  · decide
  · exact (hk b hb).2.2
  · decide
  · decide
  · exact hvalue b hb

/-- Such an object has no control characters. -/
theorem membersText_printable {ms : List (List UInt8 × RawValue)} {k : List UInt8} {n : NumText}
    (hk : Verbatim k) (hkeys : ∀ m ∈ ms, Verbatim m.1)
    (hstr : ∀ m ∈ ms, ∀ b, m.2 = .str b → Verbatim b) : ∀ b ∈ membersText ms k n, 32 ≤ b := by
  induction ms with
  | nil => exact memberText_printable hk nofun
  | cons m ms ih =>
    obtain ⟨hkey, hkeys⟩ := List.forall_mem_cons.mp hkeys
    obtain ⟨hvalue, hstr⟩ := List.forall_mem_cons.mp hstr
    intro b hb
    obtain hb | hb := List.mem_append.mp hb
    · exact memberText_printable hkey hvalue b hb
    · obtain rfl | hb := List.mem_cons.mp hb
      · decide
      · exact ih hkeys hstr b hb

/-! ## Arrays -/

section
variable {α : Type*} {text : α → List UInt8} {val : α → Json} {Good : α → Prop}
  {P : α → Json → Prop}

def itemsText (text : α → List UInt8) : List α → List UInt8
  | [] => []
  | a :: as => text a ++ as.flatMap fun b => 44 :: text b

/-- An array of items without control characters has none either. -/
theorem array_printable {as : List α} (h : ∀ a ∈ as, ∀ b ∈ text a, 32 ≤ b) :
    ∀ b ∈ 91 :: (itemsText text as ++ [93]), 32 ≤ b := by
  have hitems : ∀ b ∈ itemsText text as, 32 ≤ b := by
    cases as with
    | nil => exact List.forall_mem_nil _
    | cons a as =>
      obtain ⟨ha, has⟩ := List.forall_mem_cons.mp h
      simp only [itemsText, List.mem_append, List.mem_flatMap, List.mem_cons]
      rintro b (hb | ⟨c, hc, rfl | hb⟩)
      · exact ha b hb
      · decide
      · exact has c hc b hb
  simp only [List.mem_cons, List.mem_append]
  rintro b (rfl | hb | rfl | hb)
  · decide
  · exact hitems b hb
  · decide
  · cases hb

/-- If the text of an item is read as a value with the property `P` exactly if the item is good,
then the same goes for the items of an array. -/
theorem parsesItems_iff (hitem : ∀ a t v r, ParsesValue (text a ++ t) v r ∧ P a v ↔
      Good a ∧ v = val a ∧ r = t) {a : α} {as : List α} {t r : List UInt8} :
    (∃ vs, ParsesItems (itemsText text (a :: as) ++ 93 :: t) vs r ∧ List.Forall₂ P (a :: as) vs) ↔
      (∀ b ∈ a :: as, Good b) ∧ r = t := by
  induction as generalizing a with
  | nil =>
    have htext : itemsText text [a] ++ 93 :: t = text a ++ 93 :: t := by simp [itemsText]
    rw [htext]
    constructor
    · rintro ⟨vs, hitems, hall⟩
      obtain ⟨v, _, hv, hnil, rfl⟩ := List.forall₂_cons_left_iff.mp hall
      obtain rfl := List.forall₂_nil_left_iff.mp hnil
      cases hitems with
      | last hvalue hclose =>
        obtain ⟨hgood, -, rfl⟩ := (hitem _ _ _ _).mp ⟨hvalue, hv⟩
        exact ⟨by simpa using hgood, (skipSpace_cons_inj rfl hclose).2.symm⟩
      | cons _ _ hrest => cases hrest
    · rintro ⟨hgood, rfl⟩
      obtain ⟨hvalue, hv⟩ := (hitem a (93 :: r) _ _).mpr ⟨hgood a (by simp), rfl, rfl⟩
      exact ⟨_, .last hvalue (skipSpace_cons rfl _), .cons hv .nil⟩
  | cons b bs ih =>
    have htext : itemsText text (a :: b :: bs) ++ 93 :: t =
        text a ++ 44 :: (itemsText text (b :: bs) ++ 93 :: t) := by
      simp [itemsText]
    rw [htext]
    constructor
    · rintro ⟨vs, hitems, hall⟩
      obtain ⟨v, vs', hv, hrest, rfl⟩ := List.forall₂_cons_left_iff.mp hall
      cases hitems with
      | last => cases hrest
      | cons hvalue hcomma hitems =>
        obtain ⟨hgood, -, rfl⟩ := (hitem _ _ _ _).mp ⟨hvalue, hv⟩
        obtain ⟨-, rfl⟩ := skipSpace_cons_inj rfl hcomma
        obtain ⟨hgoods, rfl⟩ := ih.mp ⟨vs', hitems, hrest⟩
        exact ⟨List.forall_mem_cons.mpr ⟨hgood, hgoods⟩, rfl⟩
    · rintro ⟨hgood, rfl⟩
      obtain ⟨hhead, htail⟩ := List.forall_mem_cons.mp hgood
      obtain ⟨vs, hitems, hall⟩ := ih.mpr ⟨htail, rfl⟩
      obtain ⟨hvalue, hv⟩ := (hitem a _ _ _).mpr ⟨hhead, rfl, rfl⟩
      exact ⟨_, .cons hvalue (skipSpace_cons rfl _) hitems, .cons hv hall⟩

/-- A text in brackets is a document with a list of such values exactly if all items are good. -/
theorem isJson_array_iff (hitem : ∀ a t v r, ParsesValue (text a ++ t) v r ∧ P a v ↔
      Good a ∧ v = val a ∧ r = t) (as : List α) :
    (∃ vs, IsJson (91 :: (itemsText text as ++ [93])) (.arr vs) ∧ List.Forall₂ P as vs) ↔
      ∀ a ∈ as, Good a := by
  have hskip : skipSpace (91 :: (itemsText text as ++ [93])) = 91 :: (itemsText text as ++ [93]) :=
    skipSpace_cons rfl _
  cases as with
  | nil =>
    refine iff_of_true ⟨[], ⟨[], .emptyArr hskip (skipSpace_cons rfl _), rfl⟩, .nil⟩ ?_
    exact List.forall_mem_nil _
  | cons a as =>
    constructor
    · rintro ⟨vs, ⟨r, hvalue, -⟩, hall⟩
      cases hvalue with
      | emptyArr => cases hall
      | arr hbracket hitems =>
        obtain ⟨-, rfl⟩ := skipSpace_cons_inj rfl hbracket
        exact ((parsesItems_iff hitem).mp ⟨vs, hitems, hall⟩).1
    · intro hgood
      obtain ⟨vs, hitems, hall⟩ := (parsesItems_iff hitem).mpr ⟨hgood, rfl⟩
      exact ⟨vs, ⟨[], .arr hskip hitems, rfl⟩, hall⟩

end

end LiberalOS.Foundation
