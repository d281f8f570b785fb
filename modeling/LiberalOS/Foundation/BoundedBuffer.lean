import Mathlib.Data.List.Basic

/-!
# Buffers of a fixed size

Stores and loads that are checked against the size of the buffer: `none` stands for an access
outside it. `Filled` is a buffer together with the position up to which it has been filled, so a
value of the type never holds more than fits.

## Main results

* `Filled.Appends.comp` — appending piece by piece is checked as the whole.
* `copyUp_eq`, `copyDown_eq` — copying between two buffers, in either direction.
-/
namespace LiberalOS.Foundation

variable {α : Type*}

/-! ## Filling a buffer -/

/-- A buffer of `cap` cells filled from the front. -/
@[ext] structure Filled (α : Type*) (cap : ℕ) where
  items : List α
  fits : items.length ≤ cap

namespace Filled

variable {cap : ℕ}

def empty : Filled α cap := ⟨[], Nat.zero_le cap⟩

/-- The buffer with these items, if they fit. -/
def ofList? (l : List α) : Option (Filled α cap) :=
  if h : l.length ≤ cap then some ⟨l, h⟩ else none

theorem ofList?_of_le {l : List α} (h : l.length ≤ cap) : ofList? l = some ⟨l, h⟩ := dif_pos h

theorem ofList?_eq_some_iff {l : List α} {b : Filled α cap} :
    ofList? l = some b ↔ b.items = l := by
  constructor
  · intro h
    unfold ofList? at h
    split at h
    · rw [← Option.some.inj h]
    · cases h
  · rintro rfl
    exact ofList?_of_le b.fits

theorem ofList?_items (b : Filled α cap) : ofList? b.items = some b :=
  ofList?_eq_some_iff.mpr rfl

theorem ofList?_eq_none_iff {l : List α} :
    (ofList? l : Option (Filled α cap)) = none ↔ cap < l.length := by
  unfold ofList?
  split <;> simp <;> omega

theorem length_succ_le (b : Filled α cap) (h : b.items.length < cap) (a : α) :
    (b.items ++ [a]).length ≤ cap := by
  rw [List.length_append]
  exact h

/-- The store `buf[pos++] = a`. -/
def push (b : Filled α cap) (a : α) : Option (Filled α cap) :=
  if h : b.items.length < cap then some ⟨b.items ++ [a], length_succ_le b h a⟩ else none

/-- The stores of a list. -/
def pushAll (b : Filled α cap) : List α → Option (Filled α cap)
  | [] => some b
  | a :: as => (b.push a).bind fun b => b.pushAll as

/-- The stores of a list while the position is below `limit`. -/
def pushUpTo (limit : ℕ) (b : Filled α cap) : List α → Option (Filled α cap)
  | [] => some b
  | a :: as =>
    if b.items.length < limit then (b.push a).bind fun b => b.pushUpTo limit as else some b

/-- `f` makes `F` of the items, if that fits the buffer. -/
structure Appends (f : Filled α cap → Option (Filled α cap)) (F : List α → List α) : Prop where
  eq : ∀ b, f b = ofList? (F b.items)
  grows : ∀ l, l.length ≤ (F l).length

/-- Items that do not fit are not made to fit by what is appended to them. -/
theorem Appends.comp {f g : Filled α cap → Option (Filled α cap)} {F G : List α → List α}
    (hf : Appends f F) (hg : Appends g G) : Appends (fun b => (f b).bind g) fun l => G (F l) where
  eq b := by
    rw [hf.eq]
    cases h : (ofList? (F b.items) : Option (Filled α cap)) with
    | some b' => rw [Option.bind_some, hg.eq, ofList?_eq_some_iff.mp h]
    | none =>
      have hgrows := hg.grows (F b.items)
      rw [ofList?_eq_none_iff] at h
      rw [Option.bind_none, eq_comm, ofList?_eq_none_iff]
      omega
  grows l := Nat.le_trans (hf.grows l) (hg.grows (F l))

theorem appends_some : Appends (some : Filled α cap → Option (Filled α cap)) id where
  eq b := (ofList?_items b).symm
  grows _ := Nat.le_refl _

theorem appends_push (a : α) : Appends (fun b : Filled α cap => b.push a) (· ++ [a]) where
  eq b := by
    unfold push ofList?
    split <;> grind
  grows l := by simp

theorem appends_pushAll (as : List α) :
    Appends (fun b : Filled α cap => b.pushAll as) (· ++ as) := by
  induction as with
  | nil =>
    simp only [List.append_nil]
    exact appends_some
  | cons a as ih =>
    have hcomp := (appends_push a).comp ih
    simp only [List.append_assoc, List.singleton_append] at hcomp
    exact hcomp

theorem appends_pushUpTo (limit : ℕ) (as : List α) :
    Appends (fun b : Filled α cap => b.pushUpTo limit as)
      fun l => l ++ as.take (limit - l.length) where
  eq b := by
    induction as generalizing b with
    | nil => rw [pushUpTo, List.take_nil, List.append_nil, ofList?_items]
    | cons a as ih =>
      rw [pushUpTo]
      split
      · next hroom =>
        have hrest : Appends (fun b : Filled α cap => b.pushUpTo limit as)
            fun l => l ++ as.take (limit - l.length) := ⟨ih, fun l => by simp⟩
        rw [((appends_push a).comp hrest).eq, List.length_append, List.length_singleton,
          List.append_assoc, List.singleton_append, ← List.take_succ_cons]
        congr 3
        omega
      · next hroom =>
        rw [Nat.sub_eq_zero_of_le (by omega), List.take_zero, List.append_nil, ofList?_items]
  grows l := by simp

end Filled

/-! ## Copying -/

/-- The store `l[i] = a`. -/
def storeAt (l : List α) (i : Int) (a : α) : Option (List α) :=
  if 0 ≤ i ∧ i < l.length then some (l.set i.toNat a) else none

theorem storeAt_natCast {l : List α} {i : ℕ} (h : i < l.length) (a : α) :
    storeAt l i a = some (l.take i ++ a :: l.drop (i + 1)) := by
  rw [storeAt, if_pos ⟨by omega, by omega⟩, Int.toNat_natCast,
    List.set_eq_take_append_cons_drop, if_pos h]

/-- Copy `n` elements from `src[start..]` to `dst[k..]`, the first one first. -/
def copyUp (src : List α) (start : ℕ) : ℕ → ℕ → List α → Option (List α)
  | 0, _, dst => some dst
  | n + 1, k, dst =>
    src[start + k]?.bind fun a => (storeAt dst k a).bind fun dst => copyUp src start n (k + 1) dst

/-- Copy `n` elements from `src[start..]` to the front of `dst`, the last one first. -/
def copyDown (src : List α) (start : ℕ) : ℕ → List α → Option (List α)
  | 0, dst => some dst
  | n + 1, dst =>
    src[start + n]?.bind fun a => (storeAt dst n a).bind fun dst => copyDown src start n dst

variable {src : List α} {start n : ℕ}

theorem copyUp_append {k : ℕ} {done rest : List α} (hk : done.length = k)
    (hsrc : start + k + n ≤ src.length) (hdst : n ≤ rest.length) :
    copyUp src start n k (done ++ rest) =
      some (done ++ ((src.drop (start + k)).take n ++ rest.drop n)) := by
  subst hk
  induction n generalizing done rest with
  | zero => rw [copyUp, List.take_zero, List.nil_append, List.drop_zero]
  | succ n ih =>
    obtain ⟨b, rest, rfl⟩ := List.exists_cons_of_length_pos (by omega : 0 < rest.length)
    have hload : start + done.length < src.length := by omega
    have hstore : storeAt (done ++ b :: rest) done.length src[start + done.length] =
        some ((done ++ [src[start + done.length]]) ++ rest) := by
      rw [storeAt_natCast (by simp)]
      simp
    have hlen : done.length + 1 = (done ++ [src[start + done.length]]).length := by simp
    rw [copyUp, List.getElem?_eq_getElem hload, Option.bind_some, hstore, Option.bind_some, hlen,
      ih (by simpa using hdst) (by omega), ← hlen, List.drop_eq_getElem_cons hload,
      List.take_succ_cons, List.append_assoc]
    rfl

/-- Copying upwards replaces the front of the destination. -/
theorem copyUp_eq {dst : List α} (hsrc : start + n ≤ src.length) (hdst : n ≤ dst.length) :
    copyUp src start n 0 dst = some ((src.drop start).take n ++ dst.drop n) :=
  @copyUp_append α src start n 0 [] dst rfl hsrc hdst

/-- Copying downwards does the same. -/
theorem copyDown_eq {dst : List α} (hsrc : start + n ≤ src.length) (hdst : n ≤ dst.length) :
    copyDown src start n dst = some ((src.drop start).take n ++ dst.drop n) := by
  induction n generalizing dst with
  | zero => rw [copyDown, List.take_zero, List.nil_append, List.drop_zero]
  | succ n ih =>
    have hload : n < (src.drop start).length := by rw [List.length_drop]; omega
    have hget : src[start + n]? = some (src.drop start)[n] := by
      rw [← List.getElem?_drop, List.getElem?_eq_getElem hload]
    have hlen : (dst.take n).length = n := List.length_take_of_le (by omega)
    have hlong : n ≤ (dst.take n ++ (src.drop start)[n] :: dst.drop (n + 1)).length := by
      rw [List.length_append, hlen]
      omega
    rw [copyDown, hget, Option.bind_some, storeAt_natCast hdst, Option.bind_some,
      ih (by omega) hlong, List.drop_left' hlen, List.take_succ_eq_append_getElem hload,
      List.append_assoc]
    rfl

end LiberalOS.Foundation
