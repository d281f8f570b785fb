import Mathlib.Algebra.BigOperators.Fin
import Mathlib.Algebra.Group.End
import Mathlib.Algebra.Order.BigOperators.Ring.Finset
import Mathlib.Data.Fin.Rev
import Mathlib.Data.Fintype.BigOperators
import Mathlib.Data.List.Basic
import Mathlib.Data.Rat.Cast.Order
import Mathlib.Order.Fin.Basic
import Mathlib.Tactic.Linarith
import Mathlib.Tactic.Ring
import Mathlib.Tactic.FieldSimp

/-!
# Rank correlation

The sum of the squared rank differences of a permutation, and the coefficient computed from it. The
distances of a permutation from the identity and from the reversal have a sum that depends on the
length only, so the coefficient is extremal exactly at these two.

## Main results

* `spearman_mem`, `spearman_eq_one_iff`, `spearman_eq_neg_one_iff`
-/
namespace LiberalOS.Foundation

variable {n : ℕ}

/-- The squared differences between the positions and the ranks. -/
def rankDistance (σ : Equiv.Perm (Fin n)) : ℤ :=
  ∑ i : Fin n, ((i : ℤ) - (σ i : ℤ)) ^ 2

theorem rankDistance_nonneg (σ : Equiv.Perm (Fin n)) : 0 ≤ rankDistance σ :=
  Finset.sum_nonneg fun _ _ => sq_nonneg _

theorem rankDistance_eq_zero_iff (σ : Equiv.Perm (Fin n)) : rankDistance σ = 0 ↔ σ = 1 := by
  rw [rankDistance, Finset.sum_eq_zero_iff_of_nonneg fun _ _ => sq_nonneg _, Equiv.ext_iff]
  refine forall_congr' fun i => ?_
  rw [Equiv.Perm.one_apply, Fin.ext_iff]
  simp only [Finset.mem_univ, forall_const, sq_eq_zero_iff]
  omega

/-- Three times the sum of the squares of `-(n - 1)`, `-(n - 3)`, …, `n - 1`. -/
theorem sum_sq_centered (n : ℕ) :
    3 * ∑ i : Fin n, (2 * (i : ℤ) - (n - 1)) ^ 2 = (n * (n ^ 2 - 1) : ℤ) := by
  have hgauss (m : ℤ) (k : ℕ) : 3 * ∑ i : Fin k, (2 * (i : ℤ) - m) ^ 2 =
      k * (2 * (k - 1) * (2 * k - 1) - 6 * m * (k - 1) + 3 * m ^ 2) := by
    induction k with
    | zero => simp
    | succ k ih =>
      simp only [Fin.sum_univ_castSucc, Fin.val_castSucc, Fin.val_last, mul_add, ih]
      push_cast
      ring
  rw [hgauss]
  ring

/-- A rank counted from the other end. -/
theorem coe_revPerm_mul (σ : Equiv.Perm (Fin n)) (i : Fin n) :
    ((Fin.revPerm * σ : Equiv.Perm (Fin n)) i : ℤ) = (n - 1) - (σ i : ℤ) := by
  have hlt := (σ i).isLt
  rw [Equiv.Perm.mul_apply, Fin.revPerm_apply, Fin.val_rev]
  omega

/-- The distances from the identity and from the reversal have a fixed sum: the products of position
and rank cancel, and what is left does not depend on the order of the ranks. -/
theorem rankDistance_add_revPerm_mul (σ : Equiv.Perm (Fin n)) :
    3 * (rankDistance σ + rankDistance (Fin.revPerm * σ)) = n * (n ^ 2 - 1) := by
  have hsplit (i : Fin n) :
      ((i : ℤ) - (σ i : ℤ)) ^ 2 + ((i : ℤ) - ((Fin.revPerm * σ : Equiv.Perm (Fin n)) i : ℤ)) ^ 2 =
        (2 * (i : ℤ) ^ 2 - 2 * (n - 1) * (i : ℤ)) +
          (2 * (σ i : ℤ) ^ 2 - 2 * (n - 1) * (σ i : ℤ) + (n - 1) ^ 2) := by
    rw [coe_revPerm_mul]
    ring
  have hranks : ∑ i, (2 * (σ i : ℤ) ^ 2 - 2 * (n - 1) * (σ i : ℤ) + (n - 1) ^ 2) =
      ∑ i : Fin n, (2 * (i : ℤ) ^ 2 - 2 * (n - 1) * (i : ℤ) + (n - 1) ^ 2) :=
    Equiv.sum_comp σ fun i : Fin n => 2 * (i : ℤ) ^ 2 - 2 * (n - 1) * (i : ℤ) + (n - 1) ^ 2
  rw [rankDistance, rankDistance, ← Finset.sum_add_distrib,
    Finset.sum_congr rfl fun i _ => hsplit i, Finset.sum_add_distrib, hranks,
    ← Finset.sum_add_distrib, ← sum_sq_centered]
  refine congrArg (3 * ·) (Finset.sum_congr rfl fun i _ => ?_)
  ring

/-! ## The coefficient -/

/-- Spearman's coefficient of a permutation. -/
def spearman (σ : Equiv.Perm (Fin n)) : ℚ :=
  1 - 6 * (rankDistance σ : ℚ) / (n * (n * n - 1))

section

variable (hn : 2 ≤ n) (σ : Equiv.Perm (Fin n))
include hn

theorem spearman_denominator_pos : (0 : ℚ) < n * (n * n - 1) := by
  have h2 : (2 : ℚ) ≤ n := by exact_mod_cast hn
  have hsq : (1 : ℚ) < n * n := by nlinarith
  exact mul_pos (by linarith) (by linarith)

/-- The coefficient by the distance from the reversal. -/
theorem spearman_eq_reverse :
    spearman σ = -1 + 6 * (rankDistance (Fin.revPerm * σ) : ℚ) / (n * (n * n - 1)) := by
  have hpos := spearman_denominator_pos hn
  have hsum : (3 : ℚ) * (rankDistance σ + rankDistance (Fin.revPerm * σ)) = n * (n * n - 1) := by
    have h := rankDistance_add_revPerm_mul σ
    rw [pow_two] at h
    exact_mod_cast h
  have hdist : 6 * (rankDistance σ : ℚ) =
      2 * (n * (n * n - 1)) - 6 * rankDistance (Fin.revPerm * σ) := by
    linarith
  rw [spearman, hdist, sub_div, mul_div_assoc, div_self hpos.ne']
  ring

theorem spearman_mem : spearman σ ∈ Set.Icc (-1) 1 := by
  have hpos := spearman_denominator_pos hn
  constructor
  · rw [spearman_eq_reverse hn]
    have hnonneg : (0 : ℚ) ≤ rankDistance (Fin.revPerm * σ) := by
      exact_mod_cast rankDistance_nonneg _
    exact le_add_of_nonneg_right (div_nonneg (by linarith) hpos.le)
  · have hnonneg : (0 : ℚ) ≤ rankDistance σ := by exact_mod_cast rankDistance_nonneg _
    exact sub_le_self _ (div_nonneg (by linarith) hpos.le)

theorem spearman_eq_one_iff : spearman σ = 1 ↔ σ = 1 := by
  have hpos := spearman_denominator_pos hn
  rw [spearman, sub_eq_self, div_eq_zero_iff, or_iff_left hpos.ne', ← rankDistance_eq_zero_iff]
  simp

theorem spearman_eq_neg_one_iff : spearman σ = -1 ↔ σ = Fin.revPerm := by
  have hpos := spearman_denominator_pos hn
  have hinvolutive : (Fin.revPerm : Equiv.Perm (Fin n)) * Fin.revPerm = 1 :=
    Equiv.ext fun i => Fin.rev_rev i
  rw [spearman_eq_reverse hn, add_eq_left, div_eq_zero_iff, or_iff_left hpos.ne']
  have hzero := rankDistance_eq_zero_iff (Fin.revPerm * σ)
  rw [mul_eq_one_iff_eq_inv', ← eq_inv_of_mul_eq_one_left hinvolutive] at hzero
  simpa using hzero

end

/-! ## Ranks -/

/-- `σ` ranks the values of `f`. -/
def Ranks {α : Type*} [LT α] (f : Fin n → α) (σ : Equiv.Perm (Fin n)) : Prop :=
  ∀ i j, σ i < σ j ↔ f i < f j

section

variable {α : Type*} [Preorder α] {f : Fin n → α} {σ : Equiv.Perm (Fin n)} (h : Ranks f σ)
include h

theorem Ranks.eq_one_iff : σ = 1 ↔ StrictMono f := by
  constructor
  · rintro rfl i j hij
    exact (h i j).mp hij
  · intro hf
    have hmono : StrictMono σ := fun i j hij => (h i j).mpr (hf hij)
    have heq := (hmono.range_inj strictMono_id).mp (by simp)
    exact Equiv.ext fun i => congrFun heq i

theorem Ranks.eq_revPerm_iff : σ = Fin.revPerm ↔ StrictAnti f := by
  constructor
  · rintro rfl i j hij
    exact (h j i).mp (Fin.rev_lt_rev.mpr hij)
  · intro hf
    have hmono : StrictMono (σ ∘ Fin.rev) := fun i j hij =>
      (h _ _).mpr (hf (Fin.rev_lt_rev.mpr hij))
    have hrange : Set.range (σ ∘ Fin.rev) = Set.range (id : Fin n → Fin n) := by
      rw [(σ.surjective.comp Fin.rev_surjective).range_eq, Set.range_id]
    have heq := (hmono.range_inj strictMono_id).mp hrange
    refine Equiv.ext fun i => ?_
    simpa using congrFun heq i.rev

end

/-- In a descending list the first occurrences of the greater values come first. -/
theorem idxOf_lt_idxOf_iff {α : Type*} [LinearOrder α] {as : List α}
    (hsorted : as.Pairwise (· ≥ ·)) {a b : α} (ha : a ∈ as) (hb : b ∈ as) :
    as.idxOf a < as.idxOf b ↔ b < a := by
  induction hsorted with
  | nil => cases ha
  | cons hhead _ ih => grind

end LiberalOS.Foundation
