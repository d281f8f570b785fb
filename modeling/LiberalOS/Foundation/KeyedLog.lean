import Mathlib.Data.List.Basic

/-!
# Append-only logs with keyed entries

The last entry with a given key is the current one. These are the facts a last-write-wins
store needs: what appending does to the current entry of each key.
-/
namespace LiberalOS.Foundation

variable {α κ : Type*} [DecidableEq κ] (key : α → κ)

/-- The last entry of the log whose key is `k`. -/
def lastFor (k : κ) (log : List α) : Option α := (log.filter fun a => key a = k).getLast?

variable {key}

@[simp] theorem lastFor_nil (k : κ) : lastFor key k [] = none := rfl

theorem lastFor_append_singleton (k : κ) (log : List α) (a : α) :
    lastFor key k (log ++ [a]) = if key a = k then some a else lastFor key k log := by
  by_cases h : key a = k <;> simp [lastFor, List.filter_append, h]

theorem lastFor_append (k : κ) (log log' : List α) :
    lastFor key k (log ++ log') = (lastFor key k log').or (lastFor key k log) := by
  simp [lastFor, List.getLast?_append]

/-- Changing entries without their keys changes the current one alike. -/
theorem lastFor_map {f : α → α} (hf : ∀ a, key (f a) = key a) (k : κ) (log : List α) :
    lastFor key k (log.map f) = (lastFor key k log).map f := by
  simp [lastFor, List.filter_map, Function.comp_def, hf]

theorem mem_of_lastFor {k : κ} {log : List α} {a : α} (h : lastFor key k log = some a) :
    a ∈ log ∧ key a = k := by
  have := List.mem_of_getLast? h
  simpa using List.mem_filter.mp this

theorem lastFor_eq_none_iff {k : κ} {log : List α} :
    lastFor key k log = none ↔ ∀ a ∈ log, key a ≠ k := by
  simp [lastFor]

/-- An entry with no entry of its key behind it is the current one. -/
theorem lastFor_append_cons {k : κ} {a : α} (ha : key a = k) {log' : List α}
    (h : ∀ b ∈ log', key b ≠ k) (log : List α) : lastFor key k (log ++ a :: log') = some a := by
  rw [List.append_cons, lastFor_append, lastFor_eq_none_iff.mpr h, Option.none_or,
    lastFor_append_singleton, if_pos ha]

theorem exists_lastFor (key : α → κ) {log : List α} {a : α} (h : a ∈ log) :
    ∃ b, lastFor key (key a) log = some b := by
  cases hl : lastFor key (key a) log with
  | none => exact absurd rfl (lastFor_eq_none_iff.mp hl a h)
  | some b => exact ⟨b, rfl⟩

end LiberalOS.Foundation
