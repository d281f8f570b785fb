import LiberalOS.Foundation.KeyTable
import LiberalOS.Cache.Runs

/-!
# The slot table under planted records

Runs of the operations of `kernel/cache.c` between which user programs write what they like to
`/cache.bin`. The keys of the RAM slots are at every point those of a `KeyTable`: a promoted record
is one more key, whatever it is, and a record with key 0 goes where it cannot be seen.

## Main results

* `plantedStep_ram` — what an operation can do to the slots.
* `Represents.ramPut` — inserting a record is inserting its key.
* `slotTable_plantedRun` — what holds of the slots in every state that is reached.
-/
namespace LiberalOS.Cache
open Foundation Kernel

/-! ## Runs -/

/-- An operation of the cache, or a write of a user program that leaves this in `/cache.bin`. -/
inductive PlantedOp where
  | call (op : CacheOp)
  | rewrite (disk : Option (List UInt8))

/-- The operation empties the table. -/
def PlantedOp.empties : PlantedOp → Bool
  | .call (.clear _) | .call .reboot => true
  | .call (.set ..) | .call (.get ..) | .rewrite _ => false

/-- The zeroed table, over any file. -/
def CacheState.zeroed (disk : Option (List UInt8)) : CacheState := ⟨.replicate _ .zero, disk⟩

def plantedStep (st : CacheState) : PlantedOp → CacheState
  | .call op => (cacheStep ⟨st, []⟩ op).st
  | .rewrite disk => { st with disk := disk }

def plantedRun (st : CacheState) (ops : List PlantedOp) : CacheState := ops.foldl plantedStep st

/-- What is true of the table at first and kept by every operation is true at every point. -/
theorem plantedRun_invariant {I : CacheState → Prop} {disk : Option (List UInt8)}
    (hinit : ∀ disk, I (.zeroed disk)) (hstep : ∀ st op, I st → I (plantedStep st op))
    (ops : List PlantedOp) : I (plantedRun (.zeroed disk) ops) := by
  induction ops using List.reverseRecOn with
  | nil => exact hinit disk
  | append_singleton ops op ih =>
    rw [plantedRun, List.foldl_append]
    exact hstep _ op ih

/-- What an operation does to the slots: nothing, or it puts a record into them that is made by
`cache_set` or read from the file, or it empties them. -/
inductive RamChange (st : CacheState) (op : PlantedOp) : RamTable → Prop
  | same : RamChange st op st.ram
  | stored (junk : CacheSlot) (role prompt val : CString) :
      RamChange st op (ramPut (newSlot junk role prompt val) st.ram)
  | promoted (rec : CacheSlot) (hrec : rec ∈ diskRecords st.disk) :
      RamChange st op (ramPut rec st.ram)
  | cleared (hempties : op.empties = true) :
      RamChange st op (st.ram.map fun s => { s with key := 0 })
  | zeroed (hempties : op.empties = true) : RamChange st op (.replicate _ .zero)

theorem plantedStep_ram (st : CacheState) (op : PlantedOp) :
    RamChange st op (plantedStep st op).ram := by
  cases op with
  | rewrite disk => exact .same
  | call op =>
    cases op with
    | set bmap junk role prompt val =>
      rcases cacheStep_set_cases ⟨st, []⟩ bmap junk role prompt val with heq | ⟨-, heq⟩
      · rw [plantedStep, heq]
        exact .same
      · rw [plantedStep, heq]
        exact .stored junk role prompt val
    | get role prompt out outmax =>
      simp only [plantedStep, cacheStep, cacheGet_eq]
      rcases ramAfterGet_cases st role prompt with heq | ⟨rec, -, hrec, heq⟩ <;> rw [heq]
      · exact .same
      · exact .promoted rec hrec
    | clear disk => exact .cleared rfl
    | reboot => exact .zeroed rfl

/-! ## Keys -/

/-- The keys of the slots. -/
def RamTable.keys (t : RamTable) : List UInt64 := t.toList.map CacheSlot.key

abbrev SlotKeys := KeyTable UInt64 0 cacheNslot

/-- The slots hold the keys of the table, in its order. -/
def Represents (t : RamTable) (kt : SlotKeys) : Prop := t.keys = kt.slots

theorem represents_of_zero {t : RamTable} (h : ∀ s ∈ t.toList, s.key = 0) :
    Represents t .empty := by
  have hlen : t.keys.length = cacheNslot := by simp [RamTable.keys]
  exact List.eq_replicate_iff.mpr ⟨hlen, by simpa [RamTable.keys] using h⟩

theorem keys_assign (t : RamTable) (i : ℕ) (rec : CacheSlot) :
    (t.assign i rec).keys = t.keys.set i rec.key := by
  simp [RamTable.keys, RamTable.assign, List.map_set]

/-- The first slot with a key, in the loops of `ram_put`. -/
theorem findIdx?_key (t : RamTable) (k : UInt64) :
    t.toList.findIdx? (fun s => s.key == k) = t.keys.findIdx? (· == k) := by
  rw [RamTable.keys, List.findIdx?_map]
  rfl

theorem not_mem_of_findIdx?_eq_none {k : UInt64} {ks : List UInt64}
    (h : ks.findIdx? (· == k) = none) : k ∉ ks := by
  intro hmem
  simpa using List.findIdx?_eq_none_iff.mp h k hmem

/-- The loops of `ram_put` find the slot with the key, or the first empty one. -/
theorem Represents.ramPut {t : RamTable} {kt : SlotKeys} (h : Represents t kt) (rec : CacheSlot) :
    Represents (ramPut rec t) (kt.put rec.key) := by
  rw [Represents, Cache.ramPut, findIdx?_key, findIdx?_key, h]
  cases hkey : kt.slots.findIdx? (· == rec.key) with
  | some i =>
    obtain ⟨hi, hget, -⟩ := List.findIdx?_eq_some_iff_getElem.mp hkey
    rw [beq_iff_eq] at hget
    dsimp only
    rw [keys_assign, h, ← hget, List.set_getElem_self hi,
      KeyTable.put_of_mem (List.getElem_mem hi)]
  | none =>
    have hnew := not_mem_of_findIdx?_eq_none hkey
    cases hzero : kt.slots.findIdx? (· == 0) with
    | some i =>
      obtain ⟨hi, hget, hfirst⟩ := List.findIdx?_eq_some_iff_getElem.mp hzero
      rw [beq_iff_eq] at hget
      dsimp only
      rw [keys_assign, h,
        KeyTable.slots_put_of_first hnew (List.getElem?_eq_some_iff.mpr ⟨hi, hget⟩)]
      intro j a hlt hj
      obtain ⟨hlen, rfl⟩ := List.getElem?_eq_some_iff.mp hj
      simpa using hfirst j hlt
    | none =>
      have hfull := not_mem_of_findIdx?_eq_none hzero
      exact h.trans (congrArg _ (KeyTable.put_of_full hfull).symm)

/-! ## Steps -/

/-- A step empties the table, or puts at most one key into it. -/
inductive KeyStep (kt : SlotKeys) (op : PlantedOp) : SlotKeys → Prop
  | same : KeyStep kt op kt
  | put (k : UInt64) : KeyStep kt op (kt.put k)
  | empty : op.empties = true → KeyStep kt op .empty

theorem Represents.change {st : CacheState} {kt : SlotKeys} (h : Represents st.ram kt)
    {op : PlantedOp} {t : RamTable} (hchange : RamChange st op t) :
    ∃ kt', KeyStep kt op kt' ∧ Represents t kt' := by
  cases hchange with
  | same => exact ⟨kt, .same, h⟩
  | stored junk role prompt val => exact ⟨_, .put _, h.ramPut _⟩
  | promoted rec hrec => exact ⟨_, .put _, h.ramPut rec⟩
  | cleared hempties => exact ⟨.empty, .empty hempties, represents_of_zero (@keys_cacheClear 0 st)⟩
  | zeroed hempties => exact ⟨.empty, .empty hempties, represents_of_zero keys_replicate_zero⟩

theorem Represents.step {st : CacheState} {kt : SlotKeys} (h : Represents st.ram kt)
    (op : PlantedOp) : ∃ kt', KeyStep kt op kt' ∧ Represents (plantedStep st op).ram kt' :=
  h.change (plantedStep_ram st op)

theorem exists_represents (disk : Option (List UInt8)) (ops : List PlantedOp) :
    ∃ kt, Represents (plantedRun (.zeroed disk) ops).ram kt := by
  apply plantedRun_invariant (I := fun st => ∃ kt, Represents st.ram kt)
  · exact fun disk => ⟨.empty, represents_of_zero keys_replicate_zero⟩
  · rintro st op ⟨kt, h⟩
    obtain ⟨kt', -, h'⟩ := h.step op
    exact ⟨kt', h'⟩

/-- Operations that do not empty the table add keys to it. -/
theorem Represents.run {st : CacheState} {kt : SlotKeys} (h : Represents st.ram kt)
    {ops : List PlantedOp} (hops : ∀ op ∈ ops, op.empties = false) :
    ∃ kt', kt.keys <+: kt'.keys ∧ Represents (plantedRun st ops).ram kt' := by
  induction ops generalizing st kt with
  | nil => exact ⟨kt, List.prefix_refl _, h⟩
  | cons op ops ih =>
    obtain ⟨hop, hops⟩ := List.forall_mem_cons.mp hops
    obtain ⟨kt', hstep, h'⟩ := h.step op
    obtain ⟨kt'', hkeys, h''⟩ := ih h' hops
    refine ⟨kt'', List.IsPrefix.trans ?_ hkeys, h''⟩
    cases hstep with
    | same => exact List.prefix_refl _
    | put k => exact kt.keys_prefix_put k
    | empty hempties => exact absurd (hempties.symm.trans hop) (by decide)

/-! ## Statement -/

/-- The slots with a key have distinct keys and fill a prefix; what does not empty the table leaves
them their keys; and `cache_set` reports 0 when all slots hold other keys, without any change. -/
structure SlotTable (st : CacheState) : Prop where
  distinct : ∀ (i j : ℕ) (a b : CacheSlot), st.ram.toList[i]? = some a →
    st.ram.toList[j]? = some b → a.key ≠ 0 → a.key = b.key → i = j
  packed : ∀ (i j : ℕ) (a b : CacheSlot), st.ram.toList[i]? = some a →
    st.ram.toList[j]? = some b → i < j → b.key ≠ 0 → a.key ≠ 0
  keeps : ∀ ops : List PlantedOp, (∀ op ∈ ops, op.empties = false) →
    ∀ (i : ℕ) (a : CacheSlot), st.ram.toList[i]? = some a → a.key ≠ 0 →
      ∃ b, (plantedRun st ops).ram.toList[i]? = some b ∧ b.key = a.key
  full : ∀ (bmap : ℕ → Bool) (junk : CacheSlot) (role prompt val : CString),
    (cacheSet bmap junk st role prompt val).1 = false ↔
      ∀ s ∈ st.ram.toList, s.key ≠ 0 ∧ s.key ≠ cacheFnv1a role prompt
  unchanged : ∀ (bmap : ℕ → Bool) (junk : CacheSlot) (role prompt val : CString),
    (cacheSet bmap junk st role prompt val).1 = false →
      (cacheSet bmap junk st role prompt val).2 = st

theorem Represents.getElem? {t : RamTable} {kt : SlotKeys} (h : Represents t kt) {i : ℕ}
    {a : CacheSlot} (hi : t.toList[i]? = some a) : kt.slots[i]? = some a.key := by
  rw [← h, RamTable.keys, List.getElem?_map, hi]
  rfl

theorem cacheSet_eq_false_iff (bmap : ℕ → Bool) (junk : CacheSlot) (st : CacheState)
    (role prompt val : CString) : (cacheSet bmap junk st role prompt val).1 = false ↔
      ∀ s ∈ st.ram.toList, s.key ≠ 0 ∧ s.key ≠ cacheFnv1a role prompt := by
  change freeOrMatch (cacheFnv1a role prompt) st.ram = false ↔ _
  simp [freeOrMatch, and_comm]

theorem Represents.slotTable {st : CacheState} {kt : SlotKeys} (h : Represents st.ram kt) :
    SlotTable st where
  distinct i j a b hi hj hne heq :=
    KeyTable.slots_inj (h.getElem? hi) (heq ▸ h.getElem? hj) hne
  packed i j a b hi hj hlt hne :=
    KeyTable.slots_ne_of_lt (h.getElem? hi) (h.getElem? hj) hlt hne
  keeps ops hops i a hi hne := by
    obtain ⟨kt', hkeys, h'⟩ := h.run hops
    have hslot := KeyTable.slots_of_prefix hkeys (h.getElem? hi) hne
    rw [← h', RamTable.keys, List.getElem?_map, Option.map_eq_some_iff] at hslot
    exact hslot
  full bmap junk role prompt val := cacheSet_eq_false_iff bmap junk st role prompt val
  unchanged bmap junk role prompt val hfull := by
    simp only [cacheSet] at hfull ⊢
    rw [hfull]
    rfl

/-- Whatever is in the file at any time. -/
theorem slotTable_plantedRun (disk : Option (List UInt8)) (ops : List PlantedOp) :
    SlotTable (plantedRun (.zeroed disk) ops) := by
  obtain ⟨kt, h⟩ := exists_represents disk ops
  exact h.slotTable

end LiberalOS.Cache
