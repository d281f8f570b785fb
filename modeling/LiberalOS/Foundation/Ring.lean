import Mathlib.Data.Fin.Basic
import Mathlib.Data.List.Basic
import Mathlib.Logic.Function.Basic

/-!
# Circular buffers

A buffer of `n` cells that stores position `i` in cell `i % n`. `segment` is the list of the
positions from `i` up to `j`; at most `n` positions in a row have cells of their own.
-/
namespace LiberalOS.Foundation

variable {α : Type*} {n : Nat} (hn : 0 < n)

/-- The cell of a position. -/
def ringCell (i : Nat) : Fin n := ⟨i % n, Nat.mod_lt i hn⟩

/-- The positions `i, ..., j - 1` of a buffer. -/
def segment (buf : Fin n → α) (i j : Nat) : List α :=
  (List.range' i (j - i)).map fun k => buf (ringCell hn k)

@[simp] theorem length_segment (buf : Fin n → α) (i j : Nat) :
    (segment hn buf i j).length = j - i := by
  simp [segment]

theorem segment_of_le (buf : Fin n → α) {i j : Nat} (h : j ≤ i) : segment hn buf i j = [] :=
  List.eq_nil_of_length_eq_zero (by simp; omega)

theorem segment_cons (buf : Fin n → α) {i j : Nat} (h : i < j) :
    segment hn buf i j = buf (ringCell hn i) :: segment hn buf (i + 1) j := by
  obtain ⟨k, rfl⟩ : ∃ k, j = i + 1 + k := ⟨j - (i + 1), by omega⟩
  have hlen : i + 1 + k - i = k + 1 := by omega
  simp [segment, hlen, List.range'_succ]

theorem segment_append (buf : Fin n → α) {i j k : Nat} (hij : i ≤ j) (hjk : j ≤ k) :
    segment hn buf i k = segment hn buf i j ++ segment hn buf j k := by
  obtain ⟨a, rfl⟩ := Nat.exists_eq_add_of_le hij
  obtain ⟨b, rfl⟩ := Nat.exists_eq_add_of_le hjk
  have hlen : i + a + b - i = a + b := by omega
  simp only [segment, hlen, Nat.add_sub_cancel_left]
  rw [← List.map_append, List.range'_append_1]

theorem segment_succ (buf : Fin n → α) {i j : Nat} (h : i ≤ j) :
    segment hn buf i (j + 1) = segment hn buf i j ++ [buf (ringCell hn j)] := by
  rw [segment_append hn buf h (Nat.le_succ j), segment_cons hn buf (Nat.lt_succ_self j),
    segment_of_le hn buf (Nat.le_refl _)]

/-- Storing a position leaves the up to `n - 1` positions before it alone. -/
theorem segment_update (buf : Fin n → α) {i j : Nat} (h : j < i + n) (x : α) :
    segment hn (Function.update buf (ringCell hn j) x) i j = segment hn buf i j := by
  unfold segment
  refine List.map_congr_left fun k hk => Function.update_of_ne ?_ _ _
  obtain ⟨hik, hkj⟩ := List.mem_range'_1.mp hk
  intro hsame
  have hmod : k % n = j % n := by simpa [ringCell] using hsame
  have hdvd : n ∣ j - k := Nat.dvd_of_mod_eq_zero (Nat.sub_mod_eq_zero_of_mod_eq hmod.symm)
  have hle := Nat.le_of_dvd (by omega) hdvd
  omega

/-- Storing a position behind a segment extends it. -/
theorem segment_push (buf : Fin n → α) {i j : Nat} (hij : i ≤ j) (h : j < i + n) (x : α) :
    segment hn (Function.update buf (ringCell hn j) x) i (j + 1) = segment hn buf i j ++ [x] := by
  rw [segment_succ hn _ hij, segment_update hn buf h, Function.update_self]

end LiberalOS.Foundation
