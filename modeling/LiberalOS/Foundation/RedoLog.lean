import Mathlib.Data.List.Basic
import Mathlib.Data.List.Nodup
import Mathlib.Logic.Function.Basic
import LiberalOS.Foundation.Execution

/-!
# Redo logs

A redo log lies in a range of the blocks of a disk: the header in block `start`, and behind it one
block for each home address that the header lists. `LogLayout.recovered` is the contents a disk
stands for: a listed block is in the log, any other block is at home. Each write of a commit is
judged by what it does to these contents, so that nothing has to be said about where a crash falls.

`AtomicStore` is what such a log is for: transactions that commit together, and a crash that takes
the store back to the last commit.

## Main results

* `LogLayout.recovered_commit` — writing the header replaces the contents at once.
* `LogLayout.recovered_install`, `LogLayout.recovered_erase` — what follows changes nothing.
* `AtomicStore.durable_of_exec` — only a commit changes the durable contents.
-/
namespace LiberalOS.Foundation

variable {β : Type*}

/-! ## The contents of a logged disk -/

/-- Where the log lies, and the home addresses listed by the contents of a header. -/
structure LogLayout (β : Type*) where
  start : Nat
  size : Nat
  entries : β → List Nat

namespace LogLayout

variable (L : LogLayout β)

/-- The blocks that do not belong to the log. -/
def Home (a : Nat) : Prop := a < L.start ∨ L.start + L.size ≤ a

instance (a : Nat) : Decidable (L.Home a) := inferInstanceAs (Decidable (_ ∨ _))

/-- The block of entry `k`. -/
def slot (k : Nat) : Nat := L.start + 1 + k

/-- The contents the disk stands for. -/
def recovered (disk : Nat → β) (a : Nat) : β :=
  if a ∈ L.entries (disk L.start) then disk (L.slot ((L.entries (disk L.start)).idxOf a))
  else disk a

/-- A list of home addresses that fits into the log. -/
structure Fits (es : List Nat) : Prop where
  nodup : es.Nodup
  home : ∀ a ∈ es, L.Home a
  length_lt : es.length < L.size

variable {L} {disk : Nat → β} {es : List Nat} {a k : Nat}

theorem Fits.nil (h : 0 < L.size) : L.Fits [] := ⟨List.nodup_nil, by simp, by simpa using h⟩

theorem Home.ne_start (h : L.Home a) (hsize : 0 < L.size) : a ≠ L.start := by
  unfold Home at h
  omega

theorem Home.ne_slot (h : L.Home a) (hk : k + 1 < L.size) : a ≠ L.slot k := by
  unfold Home at h
  unfold slot
  omega

theorem slot_ne_start : L.slot k ≠ L.start := by
  unfold slot
  omega

theorem slot_injective {j : Nat} (h : L.slot j = L.slot k) : j = k := by
  unfold slot at h
  omega

/-- Without entries every block is at home. -/
theorem recovered_of_empty (h : L.entries (disk L.start) = []) : L.recovered disk a = disk a := by
  simp [recovered, h]

theorem recovered_of_notMem (h : L.entries (disk L.start) = es) (ha : a ∉ es) :
    L.recovered disk a = disk a := by
  rw [recovered, h, if_neg ha]

theorem recovered_of_getElem? (h : L.entries (disk L.start) = es) (hes : es.Nodup)
    (hk : es[k]? = some a) : L.recovered disk a = disk (L.slot k) := by
  obtain ⟨hlt, rfl⟩ := List.getElem?_eq_some_iff.mp hk
  have hidx : es.idxOf es[k] = k := List.get_idxOf hes ⟨k, hlt⟩
  rw [recovered, h, if_pos (List.getElem_mem hlt), hidx]

/-- What the disk stands for, block by block: `f` at home. -/
theorem recovered_eq {f : Nat → β} (h : L.entries (disk L.start) = es) (hes : es.Nodup)
    (hlog : ∀ k a, es[k]? = some a → disk (L.slot k) = f a) (hhome : a ∉ es → disk a = f a) :
    L.recovered disk a = f a := by
  by_cases ha : a ∈ es
  · rw [recovered_of_getElem? h hes (List.getElem?_idxOf ha), hlog _ _ (List.getElem?_idxOf ha)]
  · rw [recovered_of_notMem h ha, hhome ha]

/-! ## The writes of a commit -/

/-- Before the commit the log blocks may be written in any order. -/
theorem recovered_slot (hempty : L.entries (disk L.start) = []) (hk : k + 1 < L.size)
    (ha : L.Home a) (v : β) :
    L.recovered (Function.update disk (L.slot k) v) a = L.recovered disk a := by
  have hstart : Function.update disk (L.slot k) v L.start = disk L.start :=
    Function.update_of_ne slot_ne_start.symm _ _
  rw [recovered_of_empty hempty, recovered_of_empty (hstart ▸ hempty)]
  exact Function.update_of_ne (ha.ne_slot hk) _ _

/-- The header commits: the contents become `f` once its entries are in the log as `f` has them and
the other blocks are at home so. -/
theorem recovered_commit {f : Nat → β} {v : β} (hv : L.entries v = es) (hes : L.Fits es)
    (hlog : ∀ k a, es[k]? = some a → disk (L.slot k) = f a) (ha : L.Home a)
    (hhome : a ∉ es → disk a = f a) :
    L.recovered (Function.update disk L.start v) a = f a := by
  have hsize : 0 < L.size := by
    have := hes.length_lt
    omega
  refine recovered_eq (by simpa using hv) hes.nodup (fun k b hk => ?_) fun hmem => ?_
  · rw [Function.update_of_ne slot_ne_start, hlog k b hk]
  · rw [Function.update_of_ne (ha.ne_start hsize), hhome hmem]

/-- A committed block is copied home. -/
theorem recovered_install (h : L.entries (disk L.start) = es) (hes : L.Fits es) {b : Nat}
    (hk : es[k]? = some b) :
    L.recovered (Function.update disk b (disk (L.slot k))) a = L.recovered disk a := by
  have hb : L.Home b := hes.home b (List.mem_of_getElem? hk)
  have hlt : ∀ j c, es[j]? = some c → j + 1 < L.size := fun j c hj => by
    have := (List.getElem?_eq_some_iff.mp hj).1
    have := hes.length_lt
    omega
  have hstart : Function.update disk b (disk (L.slot k)) L.start = disk L.start :=
    Function.update_of_ne (hb.ne_start (Nat.zero_lt_of_lt hes.length_lt)).symm _ _
  refine recovered_eq (hstart ▸ h) hes.nodup (fun j c hj => ?_) fun hmem => ?_
  · rw [Function.update_of_ne (hb.ne_slot (hlt j c hj)).symm, recovered_of_getElem? h hes.nodup hj]
  · have hne : a ≠ b := fun hab => hmem (hab ▸ List.mem_of_getElem? hk)
    rw [Function.update_of_ne hne, recovered_of_notMem h hmem]

/-- The header is emptied when every committed block is at home. -/
theorem recovered_erase {v : β} (h : L.entries (disk L.start) = es) (hes : L.Fits es)
    (hv : L.entries v = []) (hhome : ∀ k b, es[k]? = some b → disk b = disk (L.slot k))
    (ha : L.Home a) :
    L.recovered (Function.update disk L.start v) a = L.recovered disk a := by
  have hne : a ≠ L.start := ha.ne_start (Nat.zero_lt_of_lt hes.length_lt)
  rw [recovered_of_empty (by simpa using hv), Function.update_of_ne hne]
  by_cases hmem : a ∈ es
  · have hk := List.getElem?_idxOf hmem
    rw [recovered_of_getElem? h hes.nodup hk, hhome _ _ hk]
  · rw [recovered_of_notMem h hmem]

end LogLayout

/-! ## What a redo log is for -/

/-- A store that transactions change together: the contents of the last commit, the contents now,
and the number of transactions under way. -/
structure AtomicStore (β : Type*) where
  durable : Nat → β
  current : Nat → β
  active : Nat

/-- What happens to the store. -/
inductive StoreEvent (β : Type*) where
  | begin
  | write (a : Nat) (v : β)
  | finish
  | commit
  | crash

namespace AtomicStore

/-- Only a transaction writes, and only without transactions is there a commit. -/
def step (s : AtomicStore β) : StoreEvent β → Option (AtomicStore β)
  | .begin => some { s with active := s.active + 1 }
  | .write a v =>
    if 0 < s.active then some { s with current := Function.update s.current a v } else none
  | .finish => if 0 < s.active then some { s with active := s.active - 1 } else none
  | .commit => if s.active = 0 then some { s with durable := s.current } else none
  | .crash => some { s with current := s.durable, active := 0 }

/-- A store at rest with the given contents. -/
def ofContents (f : Nat → β) : AtomicStore β := ⟨f, f, 0⟩

theorem durable_of_step {s t : AtomicStore β} {e : StoreEvent β} (h : step s e = some t)
    (he : e ≠ .commit) : t.durable = s.durable := by
  cases e <;> grind [step]

/-- Without a commit the durable contents stay. -/
theorem durable_of_exec {es : List (StoreEvent β)} {s t : AtomicStore β}
    (h : exec step s es = some t) (hes : ∀ e ∈ es, e ≠ .commit) : t.durable = s.durable := by
  induction es generalizing s with
  | nil => rw [Option.some.inj h]
  | cons e es ih =>
    obtain ⟨u, hu, hrest⟩ := Option.bind_eq_some_iff.mp h
    rw [ih hrest fun f hf => hes f (List.mem_cons_of_mem _ hf),
      durable_of_step hu (hes e List.mem_cons_self)]

end AtomicStore
end LiberalOS.Foundation
