import LiberalOS.Foundation.BestMatch
import LiberalOS.Foundation.KeyedLog
import LiberalOS.Cache.Slot

/-!
# The disk overlay `/cache.bin`

`cache_disk_append`, `cache_disk_scan` and `cache_disk_truncate` of `kernel/cache.c`, over the
inode writes of `kernel/fs.c`. The file is the list of its `ip->size` bytes and `none` stands for
a failing `namei`. Blocks below `ip->size` are allocated, so reads of a whole record never fall
short and `bmap` finds these blocks; whether it can supply another one is decided by the environment
at each write.

## Main results

* `cacheDiskAppend_eq` — an append adds one whole record or leaves the file as it was.
* `cacheDiskScan_eq` — a scan selects the last exact record, else the first best semantic one.
-/
namespace LiberalOS.Cache
open Foundation Kernel

/-! ## Inode writes -/

@[simp] abbrev bsize : Nat := 1024
@[simp] abbrev maxfile : Nat := 12 + 256

/-- Store `bs` at offset `off`, extending the content as needed. -/
def splice (file : List UInt8) (off : Nat) (bs : List UInt8) : List UInt8 :=
  file.take off ++ bs ++ file.drop (off + bs.length)

theorem splice_length (file bs : List UInt8) : splice file file.length bs = file ++ bs := by
  simp [splice]

/-- Whether `bmap` returns a block. Without `balloc` it does for a block with bytes of the file. -/
def hasBlock (bmap : Nat → Bool) (file : List UInt8) (bn : Nat) : Bool :=
  bn * bsize < file.length || bmap bn

/-- The block loop of `writei`: the remaining source is written up to the end of each block, until
`bmap` runs out of blocks. Returns the content and the offset reached. -/
def writeiLoop (bmap : Nat → Bool) : Nat → List UInt8 → Nat → List UInt8 → List UInt8 × Nat
  | 0, file, off, _ => (file, off)
  | fuel + 1, file, off, src =>
    if src = [] then (file, off)
    else if hasBlock bmap file (off / bsize) then
      let m := min src.length (bsize - off % bsize)
      writeiLoop bmap fuel (splice file off (src.take m)) (off + m) (src.drop m)
    else (file, off)

/-- Write `src` at `off`; the first component is the byte count, or `-1`. -/
def writei (bmap : Nat → Bool) (file : List UInt8) (off : Nat) (src : List UInt8) :
    Int × List UInt8 :=
  if file.length < off ∨ (off + src.length) % 2 ^ 32 < off then (-1, file)
  else if maxfile * bsize < off + src.length then (-1, file)
  else
    let r := writeiLoop bmap src.length file off src
    (r.2 - off, r.1)

/-- At the end of the file every block written extends it by a piece of the source. -/
theorem writeiLoop_append (bmap : Nat → Bool) (fuel : Nat) (file src : List UInt8) :
    ∃ k ≤ src.length, writeiLoop bmap fuel file file.length src =
      (file ++ src.take k, file.length + k) := by
  induction fuel generalizing file src with
  | zero => exact ⟨0, by omega, by simp [writeiLoop]⟩
  | succ fuel ih =>
    by_cases hsrc : src = []
    · exact ⟨0, by omega, by simp [writeiLoop, hsrc]⟩
    by_cases hb : hasBlock bmap file (file.length / bsize)
    · let m := min src.length (bsize - file.length % bsize)
      have hm : m ≤ src.length := Nat.min_le_left _ _
      have hlen : (file ++ src.take m).length = file.length + m := by
        rw [List.length_append, List.length_take, Nat.min_eq_left hm]
      obtain ⟨k, hk, heq⟩ := ih (file ++ src.take m) (src.drop m)
      rw [List.length_drop] at hk
      refine ⟨m + k, by omega, ?_⟩
      have hstep : writeiLoop bmap (fuel + 1) file file.length src =
          writeiLoop bmap fuel (splice file file.length (src.take m)) (file.length + m)
            (src.drop m) := by
        simp only [writeiLoop, if_neg hsrc, if_pos hb]
        rfl
      rw [hstep, splice_length, ← hlen, heq, hlen, List.append_assoc, ← List.take_add]
      simp [Nat.add_assoc]
    · exact ⟨0, by omega, by simp [writeiLoop, hsrc, hb]⟩

/-! ## Append and truncate -/

/-- The result of the append's `writei`. -/
def appendWritei (bmap : Nat → Bool) (rec : CacheSlot) (file : List UInt8) : Int × List UInt8 :=
  writei bmap file file.length (encodeSlot rec)

/-- The append succeeds: `writei` takes the whole record. -/
def AppendOk (bmap : Nat → Bool) (rec : CacheSlot) (disk : Option (List UInt8)) : Prop :=
  ∃ file, disk = some file ∧ (appendWritei bmap rec file).1 = 344

instance (bmap : Nat → Bool) (rec : CacheSlot) : ∀ disk, Decidable (AppendOk bmap rec disk)
  | none => isFalse (by simp [AppendOk])
  | some file => decidable_of_iff ((appendWritei bmap rec file).1 = 344) (by simp [AppendOk])

/-- Append one record. On a short write the size is rolled back, so the partial tail is ignored. -/
def cacheDiskAppend (bmap : Nat → Bool) (rec : CacheSlot) :
    Option (List UInt8) → Option (List UInt8)
  | none => none
  | some file =>
    let oldsz := file.length
    let w := appendWritei bmap rec file
    if w.1 ≠ 344 then some (w.2.take oldsz) else some w.2

theorem appendWritei_cases (bmap : Nat → Bool) (rec : CacheSlot) (file : List UInt8) :
    appendWritei bmap rec file = (-1, file) ∨
      ∃ k : Nat, appendWritei bmap rec file = ((k : Int), file ++ (encodeSlot rec).take k) := by
  unfold appendWritei writei
  split
  · exact Or.inl rfl
  split
  · exact Or.inl rfl
  · obtain ⟨k, -, heq⟩ := writeiLoop_append bmap (encodeSlot rec).length file (encodeSlot rec)
    exact Or.inr ⟨k, by simp [heq]⟩

/-- An append is all or nothing. -/
theorem cacheDiskAppend_eq (bmap : Nat → Bool) (rec : CacheSlot) (file : List UInt8) :
    (AppendOk bmap rec (some file) ∧
        cacheDiskAppend bmap rec (some file) = some (file ++ encodeSlot rec)) ∨
      (¬ AppendOk bmap rec (some file) ∧ cacheDiskAppend bmap rec (some file) = some file) := by
  have hok : AppendOk bmap rec (some file) ↔ (appendWritei bmap rec file).1 = 344 := by
    simp [AppendOk]
  rw [hok]
  rcases appendWritei_cases bmap rec file with h | ⟨k, h⟩
  · exact Or.inr (by simp [cacheDiskAppend, h])
  · by_cases hfull : k = 344
    · subst hfull
      refine Or.inl ⟨by simp [h], ?_⟩
      have htake : (encodeSlot rec).take 344 = encodeSlot rec :=
        List.take_of_length_le (length_encodeSlot rec).le
      simp [cacheDiskAppend, h, htake]
    · have hne : (k : Int) ≠ 344 := by omega
      exact Or.inr (by simp [cacheDiskAppend, h, hne])

/-- `itrunc` empties the file. -/
def cacheDiskTruncate : Option (List UInt8) → Option (List UInt8)
  | none => none
  | some _ => some []

/-! ## Scan -/

/-- The store `rec.val[CACHE_VALLEN - 1] = 0` after a record is read. -/
def CacheSlot.terminate (rec : CacheSlot) : CacheSlot :=
  { rec with val := rec.val.set ⟨191, by decide⟩ 0 }

/-- The records a scan goes through, in file order. -/
def diskRecords : Option (List UInt8) → List CacheSlot
  | none => []
  | some file => (slotCodec.records file).map CacheSlot.terminate

/-- The role comparison of the semantic paths. -/
def sameRole (role : CString) (rec : CacheSlot) : Bool :=
  strncmp rec.role.toList role.bytes cacheRolelen == 0

/-- The locals of `cache_disk_scan`; `some` stands for a set `have_` flag. -/
structure ScanState where
  exact : Option CacheSlot
  sem : Best CacheSlot

/-- One record of the scan: the last exact match is kept, and the first best semantic one. -/
def scanStep (role : CString) (key : UInt64) (qsig : Sig) (s : ScanState) (rec : CacheSlot) :
    ScanState :=
  if rec.key = key then { s with exact := some rec }
  else if sameRole role rec then
    { s with sem := s.sem.offer (fun r => sigMatch qsig r.sig) rec }
  else s

/-- Scan the overlay. The record returned is the one whose value goes to `out` and which is
promoted. -/
def cacheDiskScan (role : CString) (key : UInt64) (qsig : Sig) (disk : Option (List UInt8)) :
    Option CacheSlot :=
  let s := (diskRecords disk).foldl (scanStep role key qsig) ⟨none, .init⟩
  match s.exact with
  | some rec => some rec
  | none =>
    match s.sem.item with
    | some rec => if sigOverThreshold s.sem.score then some rec else none
    | none => none

/-- The semantic candidates of a record list: same role, another key. -/
def semanticCandidates (role : CString) (key : UInt64) (recs : List CacheSlot) : List CacheSlot :=
  recs.filter fun rec => rec.key ≠ key && sameRole role rec

/-- The best semantic match of a record list, if it is over the threshold. -/
def semanticMatch (role : CString) (key : UInt64) (qsig : Sig) (recs : List CacheSlot) :
    Option CacheSlot :=
  ((semanticCandidates role key recs).argmax fun r => sigMatch qsig r.sig).filter
    fun rec => sigOverThreshold (sigMatch qsig rec.sig)

theorem scan_exact (role : CString) (key : UInt64) (qsig : Sig) (recs : List CacheSlot) :
    (recs.foldl (scanStep role key qsig) ⟨none, .init⟩).exact =
      lastFor CacheSlot.key key recs := by
  induction recs using List.reverseRecOn with
  | nil => rfl
  | append_singleton recs rec ih =>
    rw [List.foldl_append, lastFor_append_singleton, ← ih]
    simp only [List.foldl_cons, List.foldl_nil, scanStep]
    split
    · rfl
    · split <;> rfl

theorem scan_sem (role : CString) (key : UInt64) (qsig : Sig) (recs : List CacheSlot) :
    (recs.foldl (scanStep role key qsig) ⟨none, .init⟩).sem =
      bestOf (fun r => sigMatch qsig r.sig) (semanticCandidates role key recs) := by
  rw [semanticCandidates, ← foldl_offer_filter]
  induction recs using List.reverseRecOn with
  | nil => rfl
  | append_singleton recs rec ih =>
    rw [List.foldl_append, List.foldl_append, ← ih]
    simp only [List.foldl_cons, List.foldl_nil, scanStep]
    by_cases hk : rec.key = key
    · simp [hk]
    · by_cases hr : sameRole role rec <;> simp [hk, hr]

/-- What a scan returns: the last exact record, else the first best semantic one. -/
theorem cacheDiskScan_eq (role : CString) (key : UInt64) (qsig : Sig)
    (disk : Option (List UInt8)) :
    cacheDiskScan role key qsig disk = (lastFor CacheSlot.key key (diskRecords disk)).or
      (semanticMatch role key qsig (diskRecords disk)) := by
  simp only [cacheDiskScan, semanticMatch]
  rw [scan_exact, scan_sem, bestOf_eq]
  cases lastFor CacheSlot.key key (diskRecords disk) with
  | some rec => rfl
  | none =>
    cases (semanticCandidates role key (diskRecords disk)).argmax fun r => sigMatch qsig r.sig with
    | none => rfl
    | some rec =>
      by_cases h : sigOverThreshold (sigMatch qsig rec.sig) <;>
        simp [Best.ofItem, Option.filter, h]

theorem diskRecords_append {file : List UInt8} (h : 344 ∣ file.length) (rec : CacheSlot) :
    diskRecords (some (file ++ encodeSlot rec)) = diskRecords (some file) ++ [rec.terminate] := by
  have := slotCodec.records_append h rec
  simp only [diskRecords]
  rw [show encodeSlot rec = slotCodec.encode rec from rfl, this, List.map_append]
  rfl

end LiberalOS.Cache
