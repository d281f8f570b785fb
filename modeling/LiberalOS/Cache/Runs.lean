import LiberalOS.Foundation.Execution
import LiberalOS.Cache.Ops

/-!
# Runs of the cache and where its records come from

A run is a list of operations from the empty cache. Beside the cache state it carries the log of
successful `cache_set` calls, which no operation reads. `Provenance` ties every occupied RAM slot
and every overlay record to an entry of that log, whatever appends fail on the way.
-/
namespace LiberalOS.Cache
open Foundation Kernel

/-! ## Runs -/

/-- The arguments of a successful `cache_set`. -/
structure Entry where
  role : CString
  prompt : CString
  val : CString
  deriving DecidableEq

def Entry.key (e : Entry) : UInt64 := cacheFnv1a e.role e.prompt

/-- The value as stored: cut to `CACHE_VALLEN - 1` bytes. -/
def Entry.value (e : Entry) : List UInt8 := e.val.bytes.take 191

/-- An operation, with the environment's part in it: the blocks `bmap` can supply and the stack
contents under the new record. A reboot zeroes the table and keeps the disk. -/
inductive CacheOp where
  | set (bmap : Nat → Bool) (junk : CacheSlot) (role prompt val : CString)
  | get (role prompt : CString) (out : List UInt8) (outmax : Int)
  | clear (disk : Int)
  | reboot

/-- The (role, prompt) pair an operation is about. -/
def CacheOp.pair : CacheOp → Option (CString × CString)
  | .set _ _ role prompt _ | .get role prompt _ _ => some (role, prompt)
  | .clear _ | .reboot => none

/-- Distinct pairs of the list have distinct keys. -/
def NoCollision (pairs : List (CString × CString)) : Prop :=
  ∀ a ∈ pairs, ∀ b ∈ pairs, cacheFnv1a a.1 a.2 = cacheFnv1a b.1 b.2 → a = b

instance (pairs : List (CString × CString)) : Decidable (NoCollision pairs) :=
  inferInstanceAs (Decidable (∀ a ∈ pairs, ∀ b ∈ pairs, _ → _))

structure LogState where
  st : CacheState
  log : List Entry

def LogState.init : LogState := ⟨.empty, []⟩

def cacheStep (s : LogState) : CacheOp → LogState
  | .set bmap junk role prompt val =>
    let r := cacheSet bmap junk s.st role prompt val
    ⟨r.2, if r.1 then s.log ++ [⟨role, prompt, val⟩] else s.log⟩
  | .get role prompt out outmax => { s with st := (cacheGet s.st role prompt out outmax).st }
  | .clear disk => { s with st := cacheClear disk s.st }
  | .reboot => { s with st := { s.st with ram := .replicate _ .zero } }

/-- Every operation is enabled in every state. -/
def cacheNext (s : LogState) (op : CacheOp) : Option LogState := some (cacheStep s op)

/-- The state a run ends in. -/
def runOps (ops : List CacheOp) : LogState := ops.foldl cacheStep .init

theorem exec_cacheNext (s : LogState) (ops : List CacheOp) :
    exec cacheNext s ops = some (ops.foldl cacheStep s) := by
  induction ops generalizing s with
  | nil => rfl
  | cons op ops ih => exact ih (cacheStep s op)

/-! ## The RAM table -/

/-- The two outcomes of `ram_put`: the table is full of other keys, or one slot, which held the
same key or was free for a new one, is replaced. -/
theorem ramPut_cases (rec : CacheSlot) (t : RamTable) :
    ((∀ s ∈ t.toList, s.key ≠ rec.key ∧ s.key ≠ 0) ∧ ramPut rec t = t) ∨
      ∃ i old, t.toList[i]? = some old ∧ (old.key = rec.key ∨
        (old.key = 0 ∧ ∀ s ∈ t.toList, s.key ≠ rec.key)) ∧ ramPut rec t = t.assign i rec := by
  unfold ramPut
  cases hkey : t.toList.findIdx? (fun s => s.key == rec.key) with
  | some i =>
    obtain ⟨hi, hk, -⟩ := List.findIdx?_eq_some_iff_getElem.mp hkey
    exact Or.inr ⟨i, _, List.getElem?_eq_getElem hi, Or.inl (by simpa using hk), rfl⟩
  | none =>
    have hno : ∀ s ∈ t.toList, s.key ≠ rec.key := by simpa using hkey
    cases hzero : t.toList.findIdx? (fun s => s.key == 0) with
    | some i =>
      obtain ⟨hi, hk, -⟩ := List.findIdx?_eq_some_iff_getElem.mp hzero
      exact Or.inr ⟨i, _, List.getElem?_eq_getElem hi, Or.inr ⟨by simpa using hk, hno⟩, rfl⟩
    | none =>
      have hfull : ∀ s ∈ t.toList, s.key ≠ 0 := by simpa using hzero
      exact Or.inl ⟨fun s hs => ⟨hno s hs, hfull s hs⟩, rfl⟩

theorem getElem?_assign {t : RamTable} {i j : Nat} {rec old : CacheSlot}
    (h : t.toList[i]? = some old) :
    (t.assign i rec).toList[j]? = if i = j then some rec else t.toList[j]? := by
  obtain ⟨hi, -⟩ := List.getElem?_eq_some_iff.mp h
  simp only [RamTable.assign, List.Vector.toList_mk, List.getElem?_set, if_pos hi]

theorem mem_ramPut {rec s : CacheSlot} {t : RamTable} (h : s ∈ (ramPut rec t).toList) :
    s = rec ∨ s ∈ t.toList := by
  rcases ramPut_cases rec t with ⟨-, heq⟩ | ⟨i, -, -, -, heq⟩
  · exact Or.inr (heq ▸ h)
  · rw [heq] at h
    exact (List.mem_or_eq_of_mem_set h).symm

/-- No two slots share a non-zero key. -/
def DistinctKeys (t : RamTable) : Prop :=
  ∀ (i j : Nat) (a b : CacheSlot), t.toList[i]? = some a → t.toList[j]? = some b → a.key = b.key →
    a.key ≠ 0 → i = j

theorem distinctKeys_of_zero {t : RamTable} (h : ∀ s ∈ t.toList, s.key = 0) : DistinctKeys t :=
  fun _ _ a _ ha _ _ hne => absurd (h a (List.mem_of_getElem? ha)) hne

theorem DistinctKeys.ramPut {rec : CacheSlot} {t : RamTable} (h : DistinctKeys t) :
    DistinctKeys (ramPut rec t) := by
  rcases ramPut_cases rec t with ⟨-, heq⟩ | ⟨i, old, hold, hslot, heq⟩
  · rwa [heq]
  rw [heq]
  -- a slot other than `i` that holds the key of `rec` would contradict how `i` was chosen
  have other : ∀ j b, i ≠ j → t.toList[j]? = some b → rec.key ≠ 0 → b.key ≠ rec.key := by
    intro j b hij hb hne hkey
    rcases hslot with hsame | ⟨-, hnone⟩
    · exact hij (h i j old b hold hb (hsame.trans hkey.symm) (hsame ▸ hne))
    · exact hnone b (List.mem_of_getElem? hb) hkey
  intro j k a b ha hb hkey hne
  rw [getElem?_assign hold] at ha hb
  split at ha <;> split at hb
  · omega
  · next hij hik =>
    obtain rfl : rec = a := by simpa using ha
    exact absurd hkey.symm (other k b hik hb hne)
  · next hij hik =>
    obtain rfl : rec = b := by simpa using hb
    exact absurd hkey (other j a hij ha (hkey ▸ hne))
  · exact h j k a b ha hb hkey hne

/-- After `ram_put` the record is the only one under its key. -/
theorem eq_of_mem_ramPut {rec s : CacheSlot} {t : RamTable} (h : DistinctKeys t)
    (hne : rec.key ≠ 0) (hs : s ∈ (ramPut rec t).toList) (hkey : s.key = rec.key) : s = rec := by
  rcases ramPut_cases rec t with ⟨hfull, heq⟩ | ⟨i, old, hold, -, heq⟩
  · rw [heq] at hs
    exact absurd hkey (hfull s hs).1
  · obtain ⟨j, hj⟩ := List.getElem?_of_mem hs
    have hi : (Cache.ramPut rec t).toList[i]? = some rec := by
      rw [heq, getElem?_assign hold, if_pos rfl]
    obtain rfl : j = i := h.ramPut j i s rec hj hi hkey (hkey ▸ hne)
    simpa [hi] using hj.symm

/-! ## Records and log entries -/

/-- `rec` is what `cache_set` makes of the entry `e`, up to bytes behind the terminators. -/
structure MadeFrom (rec : CacheSlot) (e : Entry) : Prop where
  key : rec.key = e.key
  role : rec.roleStr = e.role.bytes.take 15
  sig : rec.sig = cacheSig e.prompt
  val : rec.valStr = e.value

theorem newSlot_madeFrom (junk : CacheSlot) (role prompt val : CString) :
    MadeFrom (newSlot junk role prompt val) ⟨role, prompt, val⟩ where
  key := rfl
  role := by
    have h := cstr_safestrcpy (s := junk.role.toList) (n := 16) (by omega) (by simp) role.bytes
    simpa [CacheSlot.roleStr, newSlot] using h
  sig := rfl
  val := by
    have h := cstr_safestrcpy (s := junk.val.toList) (n := 192) (by omega) (by simp) val.bytes
    simpa [CacheSlot.valStr, newSlot, Entry.value] using h

theorem cstr_set_zero {bs : List UInt8} {n : Nat} (h : n < bs.length) :
    cstr (bs.set n 0) = (cstr bs).take n := by
  induction bs generalizing n with
  | nil => simp at h
  | cons b bs ih =>
    cases n with
    | zero => simp
    | succ n =>
      have hn : n < bs.length := by simpa using h
      by_cases hb : b = 0 <;> simp [hb, ih hn]

/-- A value that fits its field is not touched by the terminator a scan stores. -/
theorem MadeFrom.terminate {rec : CacheSlot} {e : Entry} (h : MadeFrom rec e) :
    MadeFrom rec.terminate e where
  key := h.key
  role := h.role
  sig := h.sig
  val := by
    have hval : cstr rec.val.toList = e.val.bytes.take 191 := h.val
    simp only [CacheSlot.valStr, CacheSlot.terminate, List.Vector.toList_set]
    rw [cstr_set_zero (by simp), hval, List.take_take]
    rfl

theorem MadeFrom.key_ne_zero {rec : CacheSlot} {e : Entry} (h : MadeFrom rec e) : rec.key ≠ 0 :=
  h.key ▸ cacheFnv1a_ne_zero e.role e.prompt

/-- The role comparison of the semantic paths, on a record made from an entry. -/
theorem MadeFrom.sameRole_iff {rec : CacheSlot} {e : Entry} (h : MadeFrom rec e) (role : CString) :
    sameRole role rec = true ↔ e.role.bytes.take 15 = role.bytes.take 16 := by
  have hrole : cstr rec.role.toList = e.role.bytes.take 15 := h.role
  simp only [sameRole, beq_iff_eq, strncmp_eq_zero_iff, hrole, CString.cstr_bytes, List.take_take]
  rfl

/-! ## Provenance -/

/-- Every record comes from the log; the overlay is whole records; RAM keys are distinct. -/
structure Provenance (s : LogState) : Prop where
  ram : ∀ rec ∈ s.st.ram.toList, rec.key ≠ 0 → ∃ e ∈ s.log, MadeFrom rec e
  disk : ∀ rec ∈ diskRecords s.st.disk, ∃ e ∈ s.log, MadeFrom rec e
  aligned : ∀ file, s.st.disk = some file → 344 ∣ file.length
  distinct : DistinctKeys s.st.ram

theorem aligned_cacheDiskAppend {disk : Option (List UInt8)}
    (h : ∀ file, disk = some file → 344 ∣ file.length) (bmap : Nat → Bool) (rec : CacheSlot) :
    ∀ file, cacheDiskAppend bmap rec disk = some file → 344 ∣ file.length := by
  intro file hfile
  cases disk with
  | none => simp [cacheDiskAppend] at hfile
  | some old =>
    rcases cacheDiskAppend_eq bmap rec old with ⟨-, heq⟩ | ⟨-, heq⟩ <;>
      obtain rfl := Option.some.inj (heq.symm.trans hfile)
    · exact slotCodec.dvd_length_append (h old rfl) rec
    · exact h old rfl

/-- What an append does to the records a scan sees. -/
theorem diskRecords_cacheDiskAppend {disk : Option (List UInt8)}
    (h : ∀ file, disk = some file → 344 ∣ file.length) (bmap : Nat → Bool) (rec : CacheSlot) :
    (AppendOk bmap rec disk ∧ diskRecords (cacheDiskAppend bmap rec disk) =
        diskRecords disk ++ [rec.terminate]) ∨
      (¬ AppendOk bmap rec disk ∧ diskRecords (cacheDiskAppend bmap rec disk) =
        diskRecords disk) := by
  cases disk with
  | none => exact Or.inr ⟨by simp [AppendOk], rfl⟩
  | some file =>
    rcases cacheDiskAppend_eq bmap rec file with ⟨hok, heq⟩ | ⟨hok, heq⟩
    · exact Or.inl ⟨hok, by rw [heq, diskRecords_append (h file rfl)]⟩
    · exact Or.inr ⟨hok, by rw [heq]⟩

theorem mem_of_cacheDiskScan {role : CString} {k : UInt64} {qsig : Sig}
    {disk : Option (List UInt8)} {rec : CacheSlot}
    (h : cacheDiskScan role k qsig disk = some rec) : rec ∈ diskRecords disk := by
  rw [cacheDiskScan_eq, Option.or_eq_some_iff] at h
  rcases h with h | ⟨-, h⟩
  · exact (mem_of_lastFor h).1
  · exact (mem_of_semanticMatch h).1

/-- A hit comes from an occupied slot, or from the overlay when RAM misses. -/
theorem mem_of_hitRecord {st : CacheState} {role prompt : CString} {rec : CacheSlot}
    (h : hitRecord st role prompt = some rec) :
    (rec ∈ st.ram.toList ∧ rec.key ≠ 0) ∨
      (RamMiss role prompt st.ram ∧ rec ∈ diskRecords st.disk) := by
  rw [hitRecord, Option.or_eq_some_iff, Option.or_eq_some_iff] at h
  rcases h with h | ⟨hexact, h | ⟨hsem, h⟩⟩
  · obtain ⟨hmem, hkey⟩ := mem_of_ramExact h
    exact Or.inl ⟨hmem, hkey ▸ cacheFnv1a_ne_zero role prompt⟩
  · rw [ramSemantic_eq] at h
    obtain ⟨hmem, hkey, -⟩ := mem_of_semanticMatch h
    exact Or.inl ⟨hmem, hkey⟩
  · exact Or.inr ⟨⟨hexact, hsem⟩, mem_of_cacheDiskScan h⟩

/-- The entry behind a hit, wherever its record is. -/
theorem Provenance.entry_of_hit {s : LogState} (h : Provenance s) {role prompt : CString}
    {rec : CacheSlot} (hhit : hitRecord s.st role prompt = some rec) :
    ∃ e ∈ s.log, MadeFrom rec e := by
  rcases mem_of_hitRecord hhit with ⟨hmem, hne⟩ | ⟨-, hmem⟩
  · exact h.ram rec hmem hne
  · exact h.disk rec hmem

/-- The table after a lookup is the old one, or the old one with a disk record promoted. -/
theorem ramAfterGet_cases (st : CacheState) (role prompt : CString) :
    ramAfterGet st role prompt = st.ram ∨ ∃ rec, hitRecord st role prompt = some rec ∧
      rec ∈ diskRecords st.disk ∧ ramAfterGet st role prompt = ramPut rec st.ram := by
  unfold ramAfterGet
  cases hhit : hitRecord st role prompt with
  | none => exact Or.inl rfl
  | some rec =>
    by_cases hmiss : RamMiss role prompt st.ram
    · refine Or.inr ⟨rec, rfl, ?_, by simp [hmiss]⟩
      obtain ⟨he, hs⟩ := hmiss
      rw [hitRecord, he, hs] at hhit
      exact mem_of_cacheDiskScan hhit
    · exact Or.inl (by simp [hmiss])

theorem keys_cacheClear {disk : Int} {st : CacheState} :
    ∀ s ∈ (cacheClear disk st).ram.toList, s.key = 0 := by
  intro s hs
  simp only [cacheClear, List.Vector.toList_map, List.mem_map] at hs
  obtain ⟨a, -, rfl⟩ := hs
  rfl

theorem diskRecords_cacheClear (disk : Int) (st : CacheState) :
    diskRecords (cacheClear disk st).disk = if disk ≠ 0 then [] else diskRecords st.disk := by
  by_cases h : disk = 0
  · simp [cacheClear, h]
  · cases hd : st.disk <;> simp [cacheClear, cacheDiskTruncate, diskRecords, h, hd]

theorem keys_replicate_zero : ∀ s ∈ (List.Vector.replicate cacheNslot CacheSlot.zero).toList,
    s.key = 0 := by
  intro s hs
  obtain rfl : s = .zero := List.eq_of_mem_replicate (n := cacheNslot) hs
  rfl

theorem Provenance.init : Provenance .init where
  ram := fun rec hrec hne => absurd (keys_replicate_zero rec hrec) hne
  disk := by simp [LogState.init, CacheState.empty, diskRecords]
  aligned := by
    intro file hfile
    obtain rfl : [] = file := by simpa [LogState.init, CacheState.empty] using hfile
    simp
  distinct := distinctKeys_of_zero keys_replicate_zero

/-- A table without occupied slots meets every demand on RAM. -/
theorem Provenance.of_zero {s : LogState} (hzero : ∀ rec ∈ s.st.ram.toList, rec.key = 0)
    (hdisk : ∀ rec ∈ diskRecords s.st.disk, ∃ e ∈ s.log, MadeFrom rec e)
    (haligned : ∀ file, s.st.disk = some file → 344 ∣ file.length) : Provenance s :=
  ⟨fun rec hrec hne => absurd (hzero rec hrec) hne, hdisk, haligned, distinctKeys_of_zero hzero⟩

/-- A `cache_set` finds the table full and changes nothing, or stores its record everywhere. -/
theorem cacheStep_set_cases (s : LogState) (bmap : Nat → Bool) (junk : CacheSlot)
    (role prompt val : CString) :
    cacheStep s (.set bmap junk role prompt val) = s ∨
      freeOrMatch (cacheFnv1a role prompt) s.st.ram = true ∧
        cacheStep s (.set bmap junk role prompt val) =
          ⟨⟨ramPut (newSlot junk role prompt val) s.st.ram,
            cacheDiskAppend bmap (newSlot junk role prompt val) s.st.disk⟩,
            s.log ++ [⟨role, prompt, val⟩]⟩ := by
  cases hfull : freeOrMatch (newSlot junk role prompt val).key s.st.ram with
  | false => exact Or.inl (by simp [cacheStep, cacheSet, hfull])
  | true => exact Or.inr ⟨hfull, by simp [cacheStep, cacheSet, hfull]⟩

theorem Provenance.set {s : LogState} (h : Provenance s) (bmap : Nat → Bool) (junk : CacheSlot)
    (role prompt val : CString) : Provenance (cacheStep s (.set bmap junk role prompt val)) := by
  rcases cacheStep_set_cases s bmap junk role prompt val with hsame | ⟨-, heq⟩
  · rwa [hsame]
  let rec' := newSlot junk role prompt val
  have hnew : MadeFrom rec' ⟨role, prompt, val⟩ := newSlot_madeFrom junk role prompt val
  -- what was made from an old entry still is, and the new records are made from the new entry
  have hold : ∀ r, (∃ e ∈ s.log, MadeFrom r e) →
      ∃ e ∈ s.log ++ [⟨role, prompt, val⟩], MadeFrom r e :=
    fun r ⟨e, he, hmade⟩ => ⟨e, by simp [he], hmade⟩
  rw [heq]
  refine ⟨?_, ?_, aligned_cacheDiskAppend h.aligned bmap rec', h.distinct.ramPut⟩
  · intro r hr hne
    rcases mem_ramPut hr with rfl | hr
    · exact ⟨_, by simp, hnew⟩
    · exact hold r (h.ram r hr hne)
  · intro r hr
    change r ∈ diskRecords (cacheDiskAppend bmap rec' s.st.disk) at hr
    rcases diskRecords_cacheDiskAppend h.aligned bmap rec' with ⟨-, hrecs⟩ | ⟨-, hrecs⟩ <;>
      rw [hrecs] at hr
    · rcases List.mem_append.mp hr with hr | hr
      · exact hold r (h.disk r hr)
      · obtain rfl := List.mem_singleton.mp hr
        exact ⟨_, by simp, hnew.terminate⟩
    · exact hold r (h.disk r hr)

theorem Provenance.get {s : LogState} (h : Provenance s) (role prompt : CString)
    (out : List UInt8) (outmax : Int) : Provenance (cacheStep s (.get role prompt out outmax)) := by
  simp only [cacheStep, cacheGet_eq]
  rcases ramAfterGet_cases s.st role prompt with heq | ⟨rec, -, hrec, heq⟩ <;> rw [heq]
  · exact h
  · refine ⟨?_, h.disk, h.aligned, h.distinct.ramPut⟩
    intro r hr hne
    rcases mem_ramPut hr with rfl | hr
    · exact h.disk r hrec
    · exact h.ram r hr hne

theorem Provenance.clear {s : LogState} (h : Provenance s) (disk : Int) :
    Provenance (cacheStep s (.clear disk)) := by
  refine .of_zero keys_cacheClear ?_ ?_
  · intro rec hrec
    change rec ∈ diskRecords (cacheClear disk s.st).disk at hrec
    rw [diskRecords_cacheClear] at hrec
    split at hrec
    · simp at hrec
    · exact h.disk rec hrec
  · intro file hfile
    by_cases hd : disk = 0
    · exact h.aligned file (by simpa [cacheStep, cacheClear, hd] using hfile)
    · have htrunc : cacheDiskTruncate s.st.disk = some file := by
        simpa [cacheStep, cacheClear, hd] using hfile
      obtain rfl : file = [] := by
        cases hdisk : s.st.disk <;> simp_all [cacheDiskTruncate]
      exact dvd_zero _

theorem Provenance.step {s : LogState} (h : Provenance s) (op : CacheOp) :
    Provenance (cacheStep s op) := by
  cases op with
  | set bmap junk role prompt val => exact h.set bmap junk role prompt val
  | get role prompt out outmax => exact h.get role prompt out outmax
  | clear disk => exact h.clear disk
  | reboot => exact .of_zero keys_replicate_zero h.disk h.aligned

/-- Every state a run reaches has provenance. -/
theorem Provenance.of_exec {ops : List CacheOp} {s : LogState}
    (h : exec cacheNext .init ops = some s) : Provenance s :=
  exec_invariant (fun _ op _ hs ht => Option.some.inj ht ▸ hs.step op) Provenance.init h

end LiberalOS.Cache
