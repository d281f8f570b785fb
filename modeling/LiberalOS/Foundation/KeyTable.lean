import Mathlib.Data.List.Basic
import Mathlib.Data.List.Nodup

/-!
# Tables of distinct keys

A table of a fixed number of slots, each with a key or with a reserved key `e` that marks it empty,
in which a new key goes to the first empty slot. What matters of such a table is the list of its
keys in the order in which they came; `KeyTable` is that list with what is true of it.

## Main results

* `KeyTable.slots_put_of_first` — the first empty slot is where a new key goes.
* `KeyTable.slots_inj`, `KeyTable.slots_ne_of_lt` — keys are distinct and fill a prefix.
* `KeyTable.slots_of_prefix` — what stays of the slots when keys are added.
-/
namespace LiberalOS.Foundation

variable {κ : Type*}

/-- Distinct keys other than `e`, at most `cap` of them. -/
structure KeyTable (κ : Type*) (e : κ) (cap : ℕ) where
  keys : List κ
  nodup : keys.Nodup
  not_mem : e ∉ keys
  fits : keys.length ≤ cap

namespace KeyTable

variable {e k : κ} {cap : ℕ}

def empty : KeyTable κ e cap := ⟨[], List.nodup_nil, List.not_mem_nil, Nat.zero_le cap⟩

/-- The keys of the slots: those of the table, and the mark of the empty ones. -/
def slots (t : KeyTable κ e cap) : List κ :=
  t.keys ++ List.replicate (cap - t.keys.length) e

/-- A key that is new goes behind the others, if there is room. -/
def IsNew (t : KeyTable κ e cap) (k : κ) : Prop := k ∉ t.keys ∧ k ≠ e ∧ t.keys.length < cap

instance [DecidableEq κ] (t : KeyTable κ e cap) (k : κ) : Decidable (t.IsNew k) :=
  inferInstanceAs (Decidable (_ ∧ _))

/-- The table with a new key. -/
def add (t : KeyTable κ e cap) (k : κ) (h : t.IsNew k) : KeyTable κ e cap where
  keys := t.keys ++ [k]
  nodup := by grind [IsNew, t.nodup]
  not_mem := by grind [IsNew, t.not_mem]
  fits := by grind [IsNew]

def put [DecidableEq κ] (t : KeyTable κ e cap) (k : κ) : KeyTable κ e cap :=
  if h : t.IsNew k then t.add k h else t

variable {t : KeyTable κ e cap}

theorem mem_slots : k ∈ t.slots ↔ k ∈ t.keys ∨ (k = e ∧ t.keys.length < cap) := by
  simp only [slots, List.mem_append, List.mem_replicate]
  grind

/-- A slot holds a key of the table, or is behind them. -/
theorem getElem?_slots {i : ℕ} (h : t.slots[i]? = some k) :
    t.keys[i]? = some k ∧ k ≠ e ∨ t.keys.length ≤ i ∧ k = e := by
  grind [slots, t.not_mem]

theorem slots_inj {i j : ℕ} (hi : t.slots[i]? = some k) (hj : t.slots[j]? = some k)
    (hne : k ≠ e) : i = j := by
  obtain ⟨hi, -⟩ | ⟨-, rfl⟩ := getElem?_slots hi
  · obtain ⟨hj, -⟩ | ⟨-, rfl⟩ := getElem?_slots hj
    · exact (List.getElem?_inj (List.getElem?_eq_some_iff.mp hi).1 t.nodup).mp (hi.trans hj.symm)
    · exact absurd rfl hne
  · exact absurd rfl hne

theorem slots_ne_of_lt {i j : ℕ} {a b : κ} (hi : t.slots[i]? = some a) (hj : t.slots[j]? = some b)
    (hlt : i < j) (hne : b ≠ e) : a ≠ e := by
  obtain ⟨-, ha⟩ | ⟨hlen, -⟩ := getElem?_slots hi
  · exact ha
  · obtain ⟨hj, -⟩ | ⟨-, hb⟩ := getElem?_slots hj
    · have := (List.getElem?_eq_some_iff.mp hj).1
      omega
    · exact absurd hb hne

/-- Adding keys leaves the slots that hold a key. -/
theorem slots_of_prefix {t' : KeyTable κ e cap} (h : t.keys <+: t'.keys) {i : ℕ}
    (hi : t.slots[i]? = some k) (hne : k ≠ e) : t'.slots[i]? = some k := by
  obtain ⟨hkey, -⟩ | ⟨-, rfl⟩ := getElem?_slots hi
  · obtain ⟨more, hmore⟩ := h
    rw [slots, ← hmore, List.append_assoc,
      List.getElem?_append_left (List.getElem?_eq_some_iff.mp hkey).1, hkey]
  · exact absurd rfl hne

section

variable [DecidableEq κ]

theorem keys_prefix_put (t : KeyTable κ e cap) (k : κ) : t.keys <+: (t.put k).keys := by
  unfold put
  split
  · exact List.prefix_append _ _
  · exact List.prefix_refl _

/-- A key that is there already changes nothing. -/
theorem put_of_mem (h : k ∈ t.slots) : t.put k = t := by
  rw [mem_slots] at h
  grind [put, IsNew]

/-- Nothing is put into a full table. -/
theorem put_of_full (h : e ∉ t.slots) : t.put k = t := by
  rw [mem_slots] at h
  grind [put, IsNew]

/-- A new key goes to the first empty slot. -/
theorem slots_put_of_first {i : ℕ} (hnew : k ∉ t.slots) (hi : t.slots[i]? = some e)
    (hfirst : ∀ j a, j < i → t.slots[j]? = some a → a ≠ e) :
    (t.put k).slots = t.slots.set i k := by
  have hempty := mem_slots.mp (List.mem_of_getElem? hi)
  have hroom : t.keys.length < cap := (hempty.resolve_left t.not_mem).2
  obtain ⟨m, hm⟩ : ∃ m, cap - t.keys.length = m + 1 := ⟨cap - t.keys.length - 1, by omega⟩
  have hslots : t.slots = t.keys ++ e :: List.replicate m e := by
    rw [slots, hm, List.replicate_succ]
  have hi : i = t.keys.length := by
    obtain ⟨-, hne⟩ | ⟨hle, -⟩ := getElem?_slots hi
    · exact absurd rfl hne
    · by_contra hne
      refine hfirst t.keys.length e (by omega) ?_ rfl
      rw [hslots, List.getElem?_append_right (Nat.le_refl _), Nat.sub_self]
      rfl
  have hadd : t.IsNew k := by
    refine ⟨fun h => hnew (mem_slots.mpr (Or.inl h)), ?_, hroom⟩
    rintro rfl
    exact hnew (mem_slots.mpr (Or.inr ⟨rfl, hroom⟩))
  have hrest : cap - (t.keys ++ [k]).length = m := by
    rw [List.length_append, List.length_singleton]
    omega
  rw [put, dif_pos hadd, hslots, hi, List.set_append_right _ _ (Nat.le_refl _), Nat.sub_self,
    List.set_cons_zero, slots, add, hrest, List.append_assoc]
  rfl

end

end KeyTable

end LiberalOS.Foundation
