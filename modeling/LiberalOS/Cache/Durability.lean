import LiberalOS.Cache.Freshness
import LiberalOS.Cache.ReadYourWrites

/-!
# What a store leaves on disk

`cache_set` reports whether the record went into RAM. The append to `/cache.bin` comes after that
and reports nothing, and a failed one is rolled back. Once RAM is cleared, the pair is answered
from the overlay alone, so the value is there exactly if the append had room or the overlay
answered the pair with this value before.

## Main results

* `appendOk_iff_hasRoom` — when an append succeeds, by file size and free blocks.
* `survivesClear_iff` — when an acknowledged store survives a clear of RAM.
-/
namespace LiberalOS.Cache
open Foundation Kernel

/-! ## When an append succeeds -/

theorem hasBlock_of_length_le (bmap : Nat → Bool) {file : List UInt8} {bn : Nat}
    (h : file.length ≤ bn * bsize) : hasBlock bmap file bn = bmap bn := by
  simp [hasBlock, Nat.not_lt.mpr h]

/-- At the end of the file `writei` gets through exactly if `bmap` finds the block of every byte. -/
theorem writeiLoop_full_iff (bmap : Nat → Bool) {fuel : Nat} {src : List UInt8}
    (hfuel : src.length ≤ fuel) (file : List UInt8) :
    (writeiLoop bmap fuel file file.length src).2 = file.length + src.length ↔
      ∀ i < src.length, hasBlock bmap file ((file.length + i) / bsize) = true := by
  induction fuel generalizing file src with
  | zero =>
    obtain rfl : src = [] := List.length_eq_zero_iff.mp (by omega)
    simp [writeiLoop]
  | succ fuel ih =>
    by_cases hsrc : src = []
    · simp [writeiLoop, hsrc]
    have hpos : 0 < src.length := List.length_pos_iff.mpr hsrc
    have hmod : file.length % bsize < bsize := Nat.mod_lt _ (by decide)
    -- the bytes up to the end of the block share it
    have hblock : ∀ i < bsize - file.length % bsize,
        (file.length + i) / bsize = file.length / bsize := by
      intro i hi
      simp only [bsize] at hi hmod ⊢
      omega
    by_cases hb : hasBlock bmap file (file.length / bsize) = true
    · simp only [writeiLoop, if_neg hsrc, if_pos hb]
      generalize hm : min src.length (bsize - file.length % bsize) = m
      have hle : m ≤ src.length := hm ▸ Nat.min_le_left _ _
      have hin : m ≤ bsize - file.length % bsize := hm ▸ Nat.min_le_right _ _
      have hfile : (file ++ src.take m).length = file.length + m := by simp [hle]
      have hlen : (src.drop m).length = src.length - m := List.length_drop
      have hfuel' : (src.drop m).length ≤ fuel := by omega
      have hrest := ih hfuel' (file ++ src.take m)
      rw [hlen, hfile, show file.length + m + (src.length - m) = file.length + src.length by omega]
        at hrest
      rw [splice_length, hrest]
      -- no byte of the blocks behind it is in the file before or after
      have hnew : ∀ i < src.length - m,
          hasBlock bmap (file ++ src.take m) ((file.length + m + i) / bsize) =
            hasBlock bmap file ((file.length + (m + i)) / bsize) := by
        intro i hi
        have hend : file.length + m ≤ (file.length + m + i) / bsize * bsize := by
          simp only [bsize] at hm hmod ⊢
          omega
        rw [← Nat.add_assoc, hasBlock_of_length_le bmap (hfile ▸ hend),
          hasBlock_of_length_le bmap (by omega)]
      constructor
      · intro h i hi
        by_cases him : i < m
        · rw [hblock i (by omega)]
          exact hb
        · have hlt : i - m < src.length - m := by omega
          have := (hnew (i - m) hlt).symm.trans (h (i - m) hlt)
          rwa [show m + (i - m) = i by omega] at this
      · intro h i hi
        exact (hnew i hi).trans (h (m + i) (by omega))
    · simp only [writeiLoop, if_neg hsrc, if_neg hb]
      constructor
      · intro h
        omega
      · intro h
        have := h 0 hpos
        rw [hblock 0 (by omega)] at this
        exact absurd this hb

/-- The file has space for one more record: the size limit is not reached, and there is a block
for each of its bytes, which the file has or gets. -/
def HasRoom (bmap : Nat → Bool) : Option (List UInt8) → Prop
  | none => False
  | some file => file.length + 344 ≤ maxfile * bsize ∧
      ∀ i < 344, hasBlock bmap file ((file.length + i) / bsize) = true

instance (bmap : Nat → Bool) : ∀ disk, Decidable (HasRoom bmap disk)
  | none => isFalse id
  | some file => inferInstanceAs (Decidable (file.length + 344 ≤ maxfile * bsize ∧
      ∀ i < 344, hasBlock bmap file ((file.length + i) / bsize) = true))

theorem appendOk_iff_hasRoom (bmap : Nat → Bool) (rec : CacheSlot) (disk : Option (List UInt8)) :
    AppendOk bmap rec disk ↔ HasRoom bmap disk := by
  cases disk with
  | none => simp [AppendOk, HasRoom]
  | some file =>
    have hloop := writeiLoop_full_iff bmap (Nat.le_refl (encodeSlot rec).length) file
    rw [length_encodeSlot] at hloop
    have hok : AppendOk bmap rec (some file) ↔ (appendWritei bmap rec file).1 = 344 := by
      simp [AppendOk]
    rw [hok, HasRoom, ← hloop, appendWritei, writei, length_encodeSlot]
    by_cases hsize : file.length + 344 ≤ maxfile * bsize
    · have hwrap : (file.length + 344) % 2 ^ 32 = file.length + 344 := by
        exact Nat.mod_eq_of_lt (lt_of_le_of_lt hsize (by decide))
      rw [if_neg (by omega), if_neg (by omega)]
      simp only [hsize, true_and]
      omega
    · rw [if_pos (show maxfile * bsize < file.length + 344 by omega)]
      refine iff_of_false ?_ fun h => hsize h.1
      split <;> simp

/-! ## Reading back after a clear -/

/-- The value the records deliver for the pair once RAM is empty: the last record with its key
carries it, or the first best paraphrase if there is none. -/
def AnsweredBy (role prompt : CString) (recs : List CacheSlot) (value : List UInt8) : Prop :=
  (∃ rec ∈ lastFor CacheSlot.key (cacheFnv1a role prompt) recs, rec.valStr = value) ∨
    (∀ rec ∈ recs, rec.key ≠ cacheFnv1a role prompt) ∧
      ∃ rec, FirstBest role prompt recs rec ∧ rec.valStr = value

/-- Storing the pair, clearing RAM and looking the pair up delivers the value, cut to its field. -/
def SurvivesClear (bmap : Nat → Bool) (junk : CacheSlot) (st : CacheState)
    (role prompt val : CString) (out : List UInt8) (outmax : Int) : Prop :=
  let cleared := cacheClear 0 (cacheSet bmap junk st role prompt val).2
  (cacheGet cleared role prompt out outmax).hit = true ∧
    cstr (cacheGet cleared role prompt out outmax).out = val.bytes.take 191

instance (bmap : Nat → Bool) (junk : CacheSlot) (st : CacheState) (role prompt val : CString)
    (out : List UInt8) (outmax : Int) :
    Decidable (SurvivesClear bmap junk st role prompt val out outmax) :=
  inferInstanceAs (Decidable (_ ∧ _))

theorem ramMiss_cacheClear (st : CacheState) (role prompt : CString) :
    RamMiss role prompt (cacheClear 0 st).ram :=
  ramMiss_iff.mpr fun rec hrec hne => absurd (keys_cacheClear rec hrec) hne

/-- With RAM cleared, the overlay alone answers. -/
theorem hitRecord_cacheClear (st : CacheState) (role prompt : CString) :
    hitRecord (cacheClear 0 st) role prompt =
      cacheDiskScan role (cacheFnv1a role prompt) (cacheSig prompt) st.disk := by
  have hmiss := ramMiss_cacheClear st role prompt
  have hdisk : (cacheClear 0 st).disk = st.disk := by simp [cacheClear]
  rw [hitRecord, hmiss.1, hmiss.2, hdisk]
  rfl

/-- A scan terminates every value, so it fits its field. -/
theorem length_valStr_le {rec : CacheSlot} {disk : Option (List UInt8)}
    (h : rec ∈ diskRecords disk) : rec.valStr.length ≤ 191 := by
  cases disk with
  | none => simp [diskRecords] at h
  | some file =>
    obtain ⟨raw, -, rfl⟩ := List.mem_map.mp h
    simp only [CacheSlot.valStr, CacheSlot.terminate, List.Vector.toList_set]
    rw [cstr_set_zero (by simp), List.length_take]
    exact Nat.min_le_left _ _

theorem cacheDiskScan_answers_iff {role prompt : CString} {disk : Option (List UInt8)}
    {value : List UInt8} :
    (∃ rec ∈ cacheDiskScan role (cacheFnv1a role prompt) (cacheSig prompt) disk,
        rec.valStr = value) ↔ AnsweredBy role prompt (diskRecords disk) value := by
  rw [cacheDiskScan_eq, AnsweredBy, ← lastFor_eq_none_iff]
  cases hlast : lastFor CacheSlot.key (cacheFnv1a role prompt) (diskRecords disk) with
  | some rec => simp
  | none => simp [← semanticMatch_eq_some_iff]

/-- After a clear, a buffer for whole values receives the value of the record on disk. -/
theorem survivesClear_iff_answeredBy {bmap : Nat → Bool} {junk : CacheSlot} {st : CacheState}
    {role prompt val : CString} {out : List UInt8} {outmax : Int} (h1 : 192 ≤ outmax)
    (h2 : outmax ≤ out.length) :
    SurvivesClear bmap junk st role prompt val out outmax ↔ AnsweredBy role prompt
      (diskRecords (cacheSet bmap junk st role prompt val).2.disk) (val.bytes.take 191) := by
  rw [← cacheDiskScan_answers_iff, SurvivesClear]
  simp only [cacheGet_eq, hitRecord_cacheClear]
  cases hscan : cacheDiskScan role (cacheFnv1a role prompt) (cacheSig prompt)
      (cacheSet bmap junk st role prompt val).2.disk with
  | none => simp
  | some rec =>
    have hfit := length_valStr_le (mem_of_cacheDiskScan hscan)
    have hstr := cstr_copyValue (by omega) h2 rec
    rw [List.take_of_length_le (by omega)] at hstr
    simp [hstr]

/-- From every reachable state: an acknowledged store survives a clear of RAM exactly if the file
had room for its record, or the records on disk already answered the pair with this value. -/
theorem survivesClear_iff {ops : List CacheOp} {s : LogState} {bmap : Nat → Bool}
    {junk : CacheSlot} {role prompt val : CString} {out : List UInt8} {outmax : Int}
    (hrun : exec cacheNext .init ops = some s)
    (hstored : (cacheSet bmap junk s.st role prompt val).1 = true) (h1 : 192 ≤ outmax)
    (h2 : outmax ≤ out.length) :
    SurvivesClear bmap junk s.st role prompt val out outmax ↔ HasRoom bmap s.st.disk ∨
      AnsweredBy role prompt (diskRecords s.st.disk) (val.bytes.take 191) := by
  let new := newSlot junk role prompt val
  have hnew : MadeFrom new.terminate ⟨role, prompt, val⟩ :=
    (newSlot_madeFrom junk role prompt val).terminate
  have hfree : freeOrMatch new.key s.st.ram = true := hstored
  have hdisk : (cacheSet bmap junk s.st role prompt val).2.disk =
      cacheDiskAppend bmap new s.st.disk := by
    simp only [cacheSet, new] at hfree ⊢
    rw [if_pos hfree]
  rw [survivesClear_iff_answeredBy h1 h2, hdisk, ← appendOk_iff_hasRoom bmap new]
  rcases diskRecords_cacheDiskAppend (Provenance.of_exec hrun).aligned bmap new with
    ⟨hok, hrecs⟩ | ⟨hok, hrecs⟩
  · -- the record just appended is the last one with its key
    have hkey : new.terminate.key = cacheFnv1a role prompt := hnew.key
    refine iff_of_true (Or.inl ⟨new.terminate, ?_, hnew.val⟩) (Or.inl hok)
    rw [hrecs, lastFor_append_singleton, if_pos hkey]
    rfl
  · rw [hrecs]
    simp [hok]

/-- One version on disk. -/
def oneVersion : List CacheOp :=
  [.set (fun _ => true) .zero (.lit "p") (.lit "list files") (.lit "A")]

theorem oneVersion_survivesClear_iff :
    SurvivesClear (fun _ => false) .zero (runOps oneVersion).st (.lit "p") (.lit "list files")
        (.lit "B") (List.replicate 192 0) 192 ↔
      HasRoom (fun _ => false) (runOps oneVersion).st.disk ∨
        AnsweredBy (.lit "p") (.lit "list files") (diskRecords (runOps oneVersion).st.disk)
          ((CString.lit "B").bytes.take 191) :=
  survivesClear_iff (exec_cacheNext _ oneVersion) (by decide +kernel) (by decide)
    (by decide +kernel)

/-- Two versions on disk, which leave 336 bytes of the file's block. -/
def twoVersions : List CacheOp :=
  oneVersion ++ [.set (fun _ => true) .zero (.lit "p") (.lit "list files") (.lit "B")]

/-- The third record needs another block. With the disk full its store is acknowledged, and the
version before it comes back. -/
theorem acknowledged_store_lost :
    ¬ ∀ (ops : List CacheOp) (s : LogState) (bmap : Nat → Bool) (junk : CacheSlot)
        (role prompt val : CString) (out : List UInt8) (outmax : Int),
      exec cacheNext .init ops = some s → (cacheSet bmap junk s.st role prompt val).1 = true →
        192 ≤ outmax → outmax ≤ out.length →
          SurvivesClear bmap junk s.st role prompt val out outmax := by
  intro h
  have hsurvives := h twoVersions (runOps twoVersions) (fun _ => false) .zero (.lit "p")
    (.lit "list files") (.lit "C") (List.replicate 192 0) 192 (exec_cacheNext _ twoVersions)
    (by decide +kernel) (by decide) (by decide +kernel)
  exact absurd hsurvives (by decide +kernel)

end LiberalOS.Cache
