import Mathlib.Data.List.Basic
import Mathlib.Tactic.Ring

/-!
# Fixed-width binary records

A file that holds nothing but records of one width is read by striding over it. `FixedCodec`
packages an encoding of one record; `records` is what a striding reader sees of any file, aligned
or not, and appending one encoded record to an aligned file appends one record to that view.
-/
namespace LiberalOS.Foundation

/-! ## Little-endian words -/

/-- The `n` low bytes of `x`, least significant first. -/
def leBytes : Nat → Nat → List UInt8
  | 0, _ => []
  | n + 1, x => UInt8.ofNat x :: leBytes n (x / 256)

/-- The number denoted by little-endian bytes. -/
def leNat : List UInt8 → Nat
  | [] => 0
  | b :: bs => b.toNat + 256 * leNat bs

@[simp] theorem length_leBytes (n x : Nat) : (leBytes n x).length = n := by
  induction n generalizing x with
  | zero => rfl
  | succ n ih => simp [leBytes, ih]

theorem leNat_leBytes (n x : Nat) : leNat (leBytes n x) = x % 256 ^ n := by
  induction n generalizing x with
  | zero => simp [leBytes, leNat, Nat.mod_one]
  | succ n ih =>
    have hpow : 256 ^ (n + 1) = 256 * 256 ^ n := by ring
    have hb : (UInt8.ofNat x).toNat = x % 256 := rfl
    rw [leBytes, leNat, ih, hb, hpow, Nat.mod_mul]

/-! ## Records -/

/-- An encoding of values as byte strings of one fixed positive width. -/
structure FixedCodec (α : Type*) where
  width : Nat
  encode : α → List UInt8
  decode : List UInt8 → α
  width_pos : 0 < width
  length_encode : ∀ a, (encode a).length = width
  decode_encode : ∀ a, decode (encode a) = a

variable {α : Type*} (c : FixedCodec α)

/-- The bytes of the `i`-th record position. -/
def FixedCodec.chunk (file : List UInt8) (i : Nat) : List UInt8 :=
  (file.drop (i * c.width)).take c.width

/-- The records at all positions that lie completely inside the file. -/
def FixedCodec.records (file : List UInt8) : List α :=
  (List.range (file.length / c.width)).map fun i => c.decode (c.chunk file i)

@[simp] theorem FixedCodec.records_nil : c.records [] = [] := by simp [FixedCodec.records]

theorem FixedCodec.getElem?_chunk (file : List UInt8) (i : Nat) {j : Nat} (h : j < c.width) :
    (c.chunk file i)[j]? = file[i * c.width + j]? := by
  rw [FixedCodec.chunk, List.getElem?_take_of_lt h, List.getElem?_drop]

theorem FixedCodec.chunk_append_left {file : List UInt8} {i : Nat}
    (h : (i + 1) * c.width ≤ file.length) (more : List UInt8) :
    c.chunk (file ++ more) i = c.chunk file i := by
  have hle : i * c.width + c.width ≤ file.length := by rwa [Nat.succ_mul] at h
  unfold FixedCodec.chunk
  rw [List.drop_append_of_le_length (by omega),
    List.take_append_of_le_length (by rw [List.length_drop]; omega)]

theorem FixedCodec.chunk_append_right {file : List UInt8} {n : Nat}
    (h : file.length = n * c.width) (a : α) : c.chunk (file ++ c.encode a) n = c.encode a := by
  unfold FixedCodec.chunk
  rw [← h, List.drop_left, ← c.length_encode a, List.take_length]

/-- Appending to an aligned file adds exactly one record, behind all others. -/
theorem FixedCodec.records_append {file : List UInt8} (h : c.width ∣ file.length) (a : α) :
    c.records (file ++ c.encode a) = c.records file ++ [a] := by
  obtain ⟨n, hn⟩ := h
  have hn : file.length = n * c.width := by rw [hn, Nat.mul_comm]
  have hold : file.length / c.width = n := by rw [hn, Nat.mul_div_cancel _ c.width_pos]
  have hnew : (file ++ c.encode a).length / c.width = n + 1 := by
    rw [List.length_append, c.length_encode, hn, ← Nat.succ_mul,
      Nat.mul_div_cancel _ c.width_pos]
  unfold FixedCodec.records
  rw [hold, hnew, List.range_succ, List.map_append]
  congr 1
  · refine List.map_congr_left fun i hi => ?_
    have hlt : i + 1 ≤ n := List.mem_range.mp hi
    rw [c.chunk_append_left (hn ▸ Nat.mul_le_mul_right _ hlt)]
  · simp [c.chunk_append_right hn, c.decode_encode]

theorem FixedCodec.dvd_length_append {file : List UInt8} (h : c.width ∣ file.length) (a : α) :
    c.width ∣ (file ++ c.encode a).length := by
  rw [List.length_append, c.length_encode]
  exact Nat.dvd_add h (dvd_refl _)

end LiberalOS.Foundation
