import LiberalOS.Foundation.RankCorrelation
import Mathlib.Data.List.Sort

/-!
# The priority correlation

The statistic that `_drive_priotest` of `host/proxy_daemon.py` reports for the order in which the
children of `priotest` have finished, before it is rounded.

## Main results

* `rho_rank_correlation` — its range, and the orders in which it is extremal.
-/
namespace LiberalOS.Host
open Foundation

/-- A `DONE` line: the child, its priority, the ticks it took and its place in the finish order. -/
structure DoneRecord where
  i : ℤ
  prio : ℤ
  t : ℤ
  order : ℕ
  deriving DecidableEq

/-- The records of the `DONE` lines, each with the number of records before it. -/
def doneRecords (lines : List (ℤ × ℤ × ℤ)) : List DoneRecord :=
  lines.zipIdx.map fun ((i, prio, t), order) => ⟨i, prio, t, order⟩

/-- `sorted(priorities, reverse=True)`. -/
def sortedReverse (priorities : List ℤ) : List ℤ := priorities.insertionSort (· ≥ ·)

def rankDiffSq (priorities : List ℤ) : ℤ :=
  (priorities.zipIdx.map fun (p, i) =>
    ((i : ℤ) - (priorities.length - 1 - (sortedReverse priorities).idxOf p)) ^ 2).sum

/-- `rho`, as an exact number. -/
def rhoPrioVsOrder (priorities : List ℤ) : ℚ :=
  let n := priorities.length
  if 2 ≤ n then 1 - 6 * (rankDiffSq priorities : ℚ) / (n * (n * n - 1)) else 0

/-- What is reported at `PRIOTEST_DONE`. -/
structure PriotestResult where
  nChildren : ℕ
  records : List DoneRecord
  rho : ℚ

def priotestResult (lines : List (ℤ × ℤ × ℤ)) : PriotestResult :=
  let records := doneRecords lines
  ⟨records.length, records, rhoPrioVsOrder (records.map DoneRecord.prio)⟩

/-- The records keep the priorities in finish order. -/
theorem doneRecords_prio (lines : List (ℤ × ℤ × ℤ)) :
    (doneRecords lines).map DoneRecord.prio = lines.map fun line => line.2.1 := by
  rw [doneRecords, List.map_map, ← List.zipIdx_map_fst 0 lines, List.map_map]
  simp [Function.comp_def, List.zipIdx_map_fst]

/-- What is reported depends on the priorities in finish order only. -/
theorem priotestResult_rho (lines : List (ℤ × ℤ × ℤ)) :
    (priotestResult lines).rho = rhoPrioVsOrder (lines.map fun line => line.2.1) := by
  rw [priotestResult, doneRecords_prio]

/-! ## The ranks -/

theorem idxOf_sortedReverse_lt (priorities : List ℤ) (i : Fin priorities.length) :
    (sortedReverse priorities).idxOf (priorities.get i) < priorities.length := by
  have hmem : priorities.get i ∈ sortedReverse priorities :=
    (List.perm_insertionSort _ _).mem_iff.mpr (List.get_mem ..)
  simpa [sortedReverse] using List.idxOf_lt_length_of_mem hmem

/-- The rank by ascending priority, as it is computed from the descending list. -/
def prioRank (priorities : List ℤ) (i : Fin priorities.length) : Fin priorities.length :=
  Fin.rev ⟨(sortedReverse priorities).idxOf (priorities.get i), idxOf_sortedReverse_lt priorities i⟩

theorem prioRank_lt_iff {priorities : List ℤ} {i j : Fin priorities.length} :
    prioRank priorities i < prioRank priorities j ↔ priorities.get i < priorities.get j := by
  have hmem (k : Fin priorities.length) : priorities.get k ∈ sortedReverse priorities :=
    (List.perm_insertionSort _ _).mem_iff.mpr (List.get_mem ..)
  rw [prioRank, prioRank, Fin.rev_lt_rev, Fin.mk_lt_mk]
  exact idxOf_lt_idxOf_iff (List.pairwise_insertionSort _ _) (hmem j) (hmem i)

section

variable {priorities : List ℤ} (hdistinct : priorities.Nodup)
include hdistinct

/-- Different priorities have different ranks. -/
theorem prioRank_injective : Function.Injective (prioRank priorities) := by
  intro i j hij
  have hle (a b : Fin priorities.length) (h : prioRank priorities a = prioRank priorities b) :
      priorities.get a ≤ priorities.get b :=
    not_lt.mp fun hlt => (prioRank_lt_iff.mpr hlt).ne' h
  exact List.nodup_iff_injective_get.mp hdistinct (le_antisymm (hle i j hij) (hle j i hij.symm))

/-- The ranks of distinct priorities are a permutation of the places. -/
theorem exists_prioRank_perm : ∃ σ : Equiv.Perm (Fin priorities.length),
    ⇑σ = prioRank priorities ∧ Ranks priorities.get σ := by
  have hbijective := Finite.injective_iff_bijective.mp (prioRank_injective hdistinct)
  exact ⟨Equiv.ofBijective _ hbijective, rfl, fun i j => prioRank_lt_iff⟩

end

/-- The sum over the list is the distance of the ranks from the places. -/
theorem rankDiffSq_eq {priorities : List ℤ} {σ : Equiv.Perm (Fin priorities.length)}
    (hσ : ⇑σ = prioRank priorities) : rankDiffSq priorities = rankDistance σ := by
  have hlist : (priorities.zipIdx.map fun (p, i) =>
      ((i : ℤ) - (priorities.length - 1 - (sortedReverse priorities).idxOf p)) ^ 2) =
        List.ofFn fun i : Fin priorities.length => ((i : ℤ) - (σ i : ℤ)) ^ 2 := by
    refine List.ext_getElem (by simp) fun k hk _ => ?_
    have hlt : k < priorities.length := by simpa using hk
    have hidx : (sortedReverse priorities).idxOf priorities[k] < priorities.length :=
      idxOf_sortedReverse_lt priorities ⟨k, hlt⟩
    simp only [List.getElem_map, List.getElem_zipIdx, List.getElem_ofFn, hσ, prioRank, Fin.val_rev,
      List.get_eq_getElem, zero_add]
    congr 2
    omega
  rw [rankDiffSq, hlist, List.sum_ofFn, rankDistance]

/-- `rho` is the coefficient of the ranks. -/
theorem rhoPrioVsOrder_eq {priorities : List ℤ} (hn : 2 ≤ priorities.length)
    {σ : Equiv.Perm (Fin priorities.length)} (hσ : ⇑σ = prioRank priorities) :
    rhoPrioVsOrder priorities = spearman σ := by
  rw [rhoPrioVsOrder, if_pos hn, rankDiffSq_eq hσ, spearman]

/-- For distinct priorities `rho` lies between -1 and 1; it is -1 exactly if the processes finished
in strictly decreasing priority order, and 1 exactly if they finished in strictly increasing
order. -/
theorem rho_rank_correlation (priorities : List ℤ) (hn : 2 ≤ priorities.length)
    (hdistinct : priorities.Nodup) :
    -1 ≤ rhoPrioVsOrder priorities ∧ rhoPrioVsOrder priorities ≤ 1 ∧
    (rhoPrioVsOrder priorities = -1 ↔ priorities.Pairwise (· > ·)) ∧
    (rhoPrioVsOrder priorities = 1 ↔ priorities.Pairwise (· < ·)) := by
  obtain ⟨σ, hσ, hranks⟩ := exists_prioRank_perm hdistinct
  obtain ⟨hlow, hhigh⟩ := spearman_mem hn σ
  rw [rhoPrioVsOrder_eq hn hσ]
  refine ⟨hlow, hhigh, ?_, ?_⟩
  · rw [spearman_eq_neg_one_iff hn, hranks.eq_revPerm_iff, List.pairwise_iff_get]
    rfl
  · rw [spearman_eq_one_iff hn, hranks.eq_one_iff, List.pairwise_iff_get]
    rfl

theorem rho_of_obeyed_priorities : rhoPrioVsOrder [30, 20, 10] = -1 :=
  (rho_rank_correlation [30, 20, 10] (by decide) (by decide)).2.2.1.mpr (by decide)

example : rhoPrioVsOrder [30, 10, 20] = -1 / 2 := by decide +kernel

end LiberalOS.Host
