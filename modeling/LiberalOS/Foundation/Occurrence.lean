import Mathlib.Data.List.Infix

/-!
# The first occurrence of a pattern

Cutting a sequence behind the first occurrence of a pattern. The cut does not move when the sequence
is extended, which is what makes it usable on input that arrives in pieces.
-/
namespace LiberalOS.Foundation

variable {α : Type*} [DecidableEq α]

/-- The sequence up to and including the first occurrence of `token`, and what is behind it. -/
def cutAfter (token : List α) : List α → Option (List α × List α)
  | [] => if token = [] then some ([], []) else none
  | a :: as =>
    if token <+: a :: as then some (token, (a :: as).drop token.length)
    else (cutAfter token as).map fun r => (a :: r.1, r.2)

/-- A pattern is found exactly if it occurs. -/
theorem cutAfter_isSome_iff (token as : List α) :
    (cutAfter token as).isSome = true ↔ token <:+: as := by
  induction as with
  | nil => by_cases h : token = [] <;> simp [cutAfter, h]
  | cons a as ih =>
    rw [cutAfter, List.infix_cons_iff]
    split
    · next hpre => simp [hpre]
    · next hpre => simp [hpre, ih]

/-- More input behind an occurrence goes to what is behind the cut. -/
theorem cutAfter_append {token as seen rest : List α}
    (h : cutAfter token as = some (seen, rest)) (more : List α) :
    cutAfter token (as ++ more) = some (seen, rest ++ more) := by
  induction as generalizing seen with
  | nil =>
    simp only [cutAfter, Option.ite_none_right_eq_some, Option.some.injEq, Prod.mk.injEq] at h
    obtain ⟨rfl, rfl, rfl⟩ := h
    cases more <;> simp [cutAfter]
  | cons a as ih =>
    rw [cutAfter] at h
    rw [List.cons_append, cutAfter]
    split at h
    · next hpre =>
      obtain ⟨rfl, rfl⟩ := Prod.mk.inj (Option.some.inj h)
      have hlong : token <+: a :: (as ++ more) := hpre.trans (List.prefix_append (a :: as) more)
      rw [if_pos hlong, ← List.cons_append, List.drop_append_of_le_length hpre.length_le]
    · next hpre =>
      obtain ⟨⟨s, r⟩, hcut, heq⟩ := Option.map_eq_some_iff.mp h
      obtain ⟨rfl, rfl⟩ := Prod.mk.inj heq
      have hfit : token.length ≤ as.length := by
        have hsome : (cutAfter token as).isSome = true := by rw [hcut]; rfl
        exact ((cutAfter_isSome_iff token as).mp hsome).length_le
      have hpre' : ¬ token <+: a :: (as ++ more) := by
        intro hlong
        rw [← List.cons_append] at hlong
        exact hpre (List.prefix_of_prefix_length_le hlong (List.prefix_append (a :: as) more)
          (by simp; omega))
      rw [if_neg hpre', ih hcut]
      rfl

end LiberalOS.Foundation
