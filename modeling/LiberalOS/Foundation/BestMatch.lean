import Mathlib.Data.List.MinMax

/-!
# One-pass selection of a best match

The loop that keeps the best score seen so far, starting below every score, and replaces its
candidate on a strict improvement. It returns the first maximum, which is `List.argmax`.
-/
namespace LiberalOS.Foundation

/-- The locals of the loop: best score (`-1` before the first candidate) and its item. -/
@[ext] structure Best (α : Type*) where
  score : Int
  item : Option α

variable {α : Type*} (f : α → Nat)

def Best.init : Best α := ⟨-1, none⟩

/-- Replace the candidate on a strict improvement. -/
def Best.offer (b : Best α) (a : α) : Best α := if (f a : Int) > b.score then ⟨f a, some a⟩ else b

/-- The loop over a whole list. -/
def bestOf (l : List α) : Best α := l.foldl (Best.offer f) .init

/-- The state of the loop as a function of the first maximum. -/
def Best.ofItem : Option α → Best α
  | none => .init
  | some a => ⟨f a, some a⟩

@[simp] theorem Best.ofItem_item (o : Option α) : (Best.ofItem f o).item = o := by
  cases o <;> rfl

theorem Best.offer_ofItem (o : Option α) (a : α) :
    (Best.ofItem f o).offer f a =
      Best.ofItem f (o.elim (some a) fun c => if f c < f a then some a else some c) := by
  cases o with
  | none =>
    have : (f a : Int) > -1 := by omega
    simp [Best.ofItem, Best.offer, Best.init, this]
  | some c =>
    by_cases h : f c < f a <;> simp [Best.ofItem, Best.offer, h]

theorem bestOf_eq (l : List α) : bestOf f l = Best.ofItem f (l.argmax f) := by
  induction l using List.reverseRecOn with
  | nil => rfl
  | append_singleton l a ih =>
    have hfold : bestOf f (l ++ [a]) = (bestOf f l).offer f a := by simp [bestOf]
    rw [hfold, ih, Best.offer_ofItem, List.argmax_concat]
    cases l.argmax f <;> rfl

/-- A loop that skips the items failing `p` selects among the others. -/
theorem foldl_offer_filter (p : α → Bool) (l : List α) :
    l.foldl (fun b a => if p a then b.offer f a else b) Best.init = bestOf f (l.filter p) := by
  simp [bestOf, List.foldl_filter]

end LiberalOS.Foundation
