import Mathlib.Algebra.BigOperators.Group.Finset.Piecewise
import Mathlib.Algebra.Order.BigOperators.Group.Finset
import Mathlib.Data.Fintype.Basic

/-!
# Reference counts

Objects with a counter each, and holders that have references to them. `Counted` says that every
counter is the number of the references there are. A step changes the references of one holder, or
moves them from one to another; what it must do to the counters is said once here.

`entries` are the references in a table that has a place for each of finitely many numbers.
-/
namespace LiberalOS.Foundation

section Counted
variable {α ι : Type*} [DecidableEq α] [Fintype ι] {ref ref' : α → Nat}
  {held held' : ι → Multiset α} {a : α} {i j : ι}

/-- Every counter is the number of the references to the object. -/
def Counted (ref : α → Nat) (held : ι → Multiset α) : Prop := ∀ a, ref a = ∑ i, (held i).count a

theorem Counted.pos_iff (h : Counted ref held) : 0 < ref a ↔ ∃ i, a ∈ held i := by
  simp [h a, Finset.sum_pos_iff, Multiset.count_pos]

theorem Counted.pos (h : Counted ref held) (ha : a ∈ held i) : 0 < ref a := h.pos_iff.mpr ⟨i, ha⟩

theorem Counted.notMem (h : Counted ref held) (ha : ref a = 0) (i : ι) : a ∉ held i := fun hi =>
  absurd (h.pos hi) (by omega)

/-- The only reference to an object has one holder. -/
theorem Counted.eq_of_ref_eq_one [DecidableEq ι] (h : Counted ref held) (ha : ref a = 1)
    (hi : a ∈ held i) (hj : a ∈ held j) : i = j := by
  by_contra hne
  have hle : ∑ k ∈ ({i, j} : Finset ι), (held k).count a ≤ ∑ k, (held k).count a :=
    Finset.sum_le_sum_of_subset (Finset.subset_univ _)
  rw [Finset.sum_pair hne, ← h a, ha] at hle
  have := Multiset.count_pos.mpr hi
  have := Multiset.count_pos.mpr hj
  omega

/-- It is held once. -/
theorem Counted.count_le (h : Counted ref held) (i : ι) (a : α) : (held i).count a ≤ ref a := by
  rw [h a]
  exact Finset.single_le_sum (f := fun i => (held i).count a) (fun _ _ => Nat.zero_le _)
    (Finset.mem_univ i)

/-- One holder changes its references, and the counters change with them. -/
theorem Counted.of_change [DecidableEq ι] (h : Counted ref held) (i : ι)
    (hother : ∀ j, j ≠ i → held' j = held j)
    (href : ∀ a, ref' a + (held i).count a = ref a + (held' i).count a) : Counted ref' held' := by
  intro a
  have hsum : ∑ j ∈ Finset.univ.erase i, (held' j).count a =
      ∑ j ∈ Finset.univ.erase i, (held j).count a :=
    Finset.sum_congr rfl fun j hj => by rw [hother j (Finset.ne_of_mem_erase hj)]
  have hold := Finset.add_sum_erase Finset.univ (fun j => (held j).count a) (Finset.mem_univ i)
  have hnew := Finset.add_sum_erase Finset.univ (fun j => (held' j).count a) (Finset.mem_univ i)
  have := h a
  have := href a
  omega

/-- References go from one holder to another. -/
theorem Counted.of_move [DecidableEq ι] (h : Counted ref held) (hij : i ≠ j)
    (hother : ∀ k, k ≠ i → k ≠ j → held' k = held k) (hsame : held' i + held' j = held i + held j) :
    Counted ref held' := by
  -- the references are nobody's in between
  have hmid : Counted (fun a => ref a + (held' j).count a - (held j).count a)
      (Function.update held j (held' j)) := by
    refine h.of_change j (fun k hk => Function.update_of_ne hk _ _) fun a => ?_
    have := h.count_le j a
    simp only [Function.update_self]
    omega
  refine hmid.of_change i (fun k hk => ?_) fun a => ?_
  · by_cases hkj : k = j
    · rw [hkj, Function.update_self]
    · rw [Function.update_of_ne hkj, hother k hk hkj]
  · have hcount := congrArg (Multiset.count a) hsame
    simp only [Multiset.count_add] at hcount
    have := h.count_le j a
    simp only [Function.update_of_ne hij]
    omega

end Counted

section entries
variable {α κ : Type*} [Fintype κ]

/-- What is in the places of a table. -/
def entries (g : κ → Option α) : Multiset α := ∑ k, (g k).elim 0 fun a => {a}

variable {g : κ → Option α} {k : κ} {a : α}

theorem mem_entries : a ∈ entries g ↔ ∃ k, g k = some a := by
  simp only [entries, Multiset.mem_sum, Finset.mem_univ, true_and]
  refine exists_congr fun k => ?_
  cases g k <;> simp [eq_comm]

theorem entries_eq_zero_iff : entries g = 0 ↔ ∀ k, g k = none := by
  simp only [Multiset.eq_zero_iff_forall_notMem, mem_entries, Option.eq_none_iff_forall_ne_some]
  grind

theorem count_entries [DecidableEq α] (g : κ → Option α) (a : α) :
    (entries g).count a = (Finset.univ.filter fun k => g k = some a).card := by
  rw [entries, Multiset.count_sum', Finset.card_filter]
  refine Finset.sum_congr rfl fun k _ => ?_
  cases g k <;> simp [Multiset.count_singleton, eq_comm]

variable [DecidableEq κ]

/-- One place is filled. -/
theorem entries_update (hk : g k = none) (a : α) :
    entries (Function.update g k (some a)) = a ::ₘ entries g := by
  have hrest : ∑ l ∈ Finset.univ.erase k, (Function.update g k (some a) l).elim 0 (fun a => {a}) =
      ∑ l ∈ Finset.univ.erase k, (g l).elim 0 fun a => ({a} : Multiset α) :=
    Finset.sum_congr rfl fun l hl => by
      rw [Function.update_of_ne (Finset.ne_of_mem_erase hl)]
  have hold := Finset.add_sum_erase Finset.univ (fun l => (g l).elim 0 fun a => ({a} : Multiset α))
    (Finset.mem_univ k)
  simp only [hk, Option.elim_none, zero_add] at hold
  rw [entries, ← Finset.add_sum_erase _ _ (Finset.mem_univ k), hrest, hold, Function.update_self,
    Option.elim_some, Multiset.singleton_add, entries]

/-- One place is cleared. -/
theorem entries_clear (hk : g k = some a) :
    a ::ₘ entries (Function.update g k none) = entries g := by
  rw [← entries_update (Function.update_self k none g), Function.update_idem, ← hk,
    Function.update_eq_self]

end entries

end LiberalOS.Foundation
