import LiberalOS.Cache.Durability
import LiberalOS.Kernel.FileContent

/-!
# The overlay on the blocks of its file

The overlay operations of `kernel/cache.c` and the cache above them, with `/cache.bin` as an inode
and its blocks instead of a list of bytes. Between two operations the rest of the system may use
and free blocks the file does not own. Each operation locks the inode, which is read back from the
disk if it is not valid in memory.

A state carries the records whose append succeeded since the overlay was last emptied, which no
operation reads.

## Main results

* `cacheDiskAppend_spec` — an append adds one whole record or leaves the file as it read.
* `blockNext_refines` — the operations do to the content what those on a list of bytes do.
* `overlay_all_or_nothing` — in every run a scan goes through the appended records.
-/
namespace LiberalOS.Cache.OnBlocks
open Foundation Kernel Kernel.Fs

/-! ## The overlay operations -/

/-- `cache_disk_append` behind `ilock`. The code returns nothing; here the first component says
whether the write took the whole record. -/
def cacheDiskAppend (rec : CacheSlot) (f : File) : Option (Bool × File) :=
  let oldsz := f.ip.size
  (Fs.writei f f.ip.size (encodeSlot rec)).map fun (ret, f) =>
    if ret ≠ 344 then (false, iupdate (f.setSize oldsz)) else (true, f)

/-- The loop of `cache_disk_scan` over a file of size `sz`, with what it does to its locals for
each record. -/
def scanLoop {σ : Type*} (visit : σ → CacheSlot → σ) (sz : Nat) :
    Nat → σ → File → Nat → Option (σ × File)
  | 0, s, f, _ => some (s, f)
  | fuel + 1, s, f, off =>
    if off + 344 ≤ sz then
      match readi f off 344 with
      | none => none
      | some (bs, f) =>
        if bs.length ≠ 344 then some (s, f)
        else scanLoop visit sz fuel (visit s (decodeSlot bs).terminate) f (off + 344)
    else some (s, f)

/-- The loop from the start; a record takes more than one byte. -/
def scan {σ : Type*} (visit : σ → CacheSlot → σ) (s : σ) (f : File) : Option (σ × File) :=
  scanLoop visit f.ip.size f.ip.size s f 0

/-- The records a scan goes through. -/
def scannedRecords (f : File) : Option (List CacheSlot) :=
  (scan (fun recs rec => recs ++ [rec]) [] f).map Prod.fst

/-- `cache_disk_scan` behind `ilock`. -/
def cacheDiskScan (role : CString) (key : UInt64) (qsig : Sig) (f : File) :
    Option (Option CacheSlot × File) :=
  (scan (scanStep role key qsig) ⟨none, .init⟩ f).map fun (s, f) =>
    match s.exact with
    | some rec => (some rec, f)
    | none =>
      match s.sem.item with
      | some rec => (if sigOverThreshold s.sem.score then some rec else none, f)
      | none => (none, f)

/-! ## The cache -/

structure BlockState where
  ram : RamTable
  file : File
  log : List CacheSlot

/-- `cache_set`. -/
def cacheSet (valid : Bool) (junk : CacheSlot) (s : BlockState) (role prompt val : CString) :
    Option (Bool × BlockState) :=
  let rec' := newSlot junk role prompt val
  if freeOrMatch rec'.key s.ram then
    (cacheDiskAppend rec' (ilock valid s.file)).map fun (ok, f) =>
      (true, ⟨ramPut rec' s.ram, f, if ok then s.log ++ [rec'] else s.log⟩)
  else some (false, s)

/-- `cache_get`: whether it is a hit, the buffer, and the state. -/
def cacheGet (valid : Bool) (s : BlockState) (role prompt : CString) (out : List UInt8)
    (outmax : Int) : Option (Bool × List UInt8 × BlockState) :=
  let k := cacheFnv1a role prompt
  let qsig := cacheSig prompt
  match ramExact k s.ram with
  | some rec => some (true, copyValue out outmax rec, s)
  | none =>
    match ramSemantic role qsig s.ram with
    | some rec => some (true, copyValue out outmax rec, s)
    | none =>
      (cacheDiskScan role k qsig (ilock valid s.file)).map fun (hit, f) =>
        match hit with
        | some promo =>
          (true, copyValue out outmax promo, { s with ram := ramPut promo s.ram, file := f })
        | none => (false, out, { s with file := f })

/-- `cache_clear`; `disk ≠ 0` also truncates the overlay. -/
def cacheClear (valid : Bool) (disk : Int) (s : BlockState) : Option BlockState :=
  let ram := s.ram.map fun slot => { slot with key := 0 }
  if disk ≠ 0 then (itrunc (ilock valid s.file)).map fun f => ⟨ram, f, []⟩
  else some { s with ram := ram }

/-- The operations, with whether the inode is valid in memory, and what the rest of the system does
to a block. -/
inductive BlockOp where
  | set (valid : Bool) (junk : CacheSlot) (role prompt val : CString)
  | get (valid : Bool) (role prompt : CString) (out : List UInt8) (outmax : Int)
  | clear (valid : Bool) (disk : Int)
  | other (b : Nat) (used : Bool) (bytes : Nat → UInt8)

/-- A block that the file does not own is used or freed and gets other bytes. -/
def otherStep (f : File) (b : Nat) (used : Bool) (bytes : Nat → UInt8) : File :=
  if b ≠ 0 ∧ ∀ k ≤ Fs.maxfile, f.block k ≠ b then
    { f with disk := { f.disk with used := Function.update f.disk.used b used }.write b bytes }
  else f

/-- A step; `none` is a panic. -/
def blockNext (s : BlockState) : BlockOp → Option BlockState
  | .set valid junk role prompt val => (cacheSet valid junk s role prompt val).map Prod.snd
  | .get valid role prompt out outmax =>
    (cacheGet valid s role prompt out outmax).map fun r => r.2.2
  | .clear valid disk => cacheClear valid disk s
  | .other b used bytes => some { s with file := otherStep s.file b used bytes }

/-! ## An append -/

theorem ilock_eq {f : File} (h : f.dip = f.ip) (valid : Bool) : ilock valid f = f := by
  obtain ⟨disk, ip, dip⟩ := f
  obtain rfl : dip = ip := h
  cases valid <;> rfl

/-- The blocks of the content a file has. -/
def blocksOf (f : File) (bn : Nat) : Bool := f.block (place bn) != 0

/-- A write of a record at the end is complete exactly if the file has the blocks for it. -/
theorem hasRoom_iff_complete {f g : File} {rec : CacheSlot} {k : Nat} (hf : f.Wf)
    (hmax : f.ip.size + 344 ≤ Fs.maxfile * Fs.bsize) (hk : k ≤ 344)
    (hw : f.Wrote f.ip.size ((encodeSlot rec).take k) g)
    (hshort : k < 344 → ¬ g.Mapped (f.ip.size + k)) :
    HasRoom (blocksOf g) (some f.content) ↔ k = 344 := by
  rw [HasRoom, File.length_content]
  simp only [hasBlock, File.length_content, blocksOf, Bool.or_eq_true, decide_eq_true_eq,
    bne_iff_ne]
  constructor
  · rintro ⟨-, hblocks⟩
    by_contra hne
    refine hshort (by omega) ?_
    rcases hblocks k (by omega) with hold | hnew
    · -- a block of the file before is one of the file after
      exact hw.mapped _ (by omega) (hf.mapped _ hold)
    · exact hnew
  · rintro rfl
    refine ⟨hmax, fun i hi => ?_⟩
    have hlen : ((encodeSlot rec).take 344).length = 344 := by simp [length_encodeSlot]
    exact Or.inr (hw.wrote i _ (List.getElem?_eq_getElem (by omega))).1

/-- An append adds the record, exactly if the file then has the blocks for it, or leaves the file
as it read. -/
theorem cacheDiskAppend_spec {f : File} (hf : f.Wf) (rec : CacheSlot) :
    ∃ ok g, cacheDiskAppend rec f = some (ok, g) ∧ g.Wf ∧ g.dip = g.ip ∧
      (ok = true ↔ HasRoom (blocksOf g) (some f.content)) ∧
      g.content = if ok then f.content ++ encodeSlot rec else f.content := by
  have hrec := length_encodeSlot rec
  have hsize := hf.size_le
  simp only [Fs.maxfile, ndirect, nindirect, Fs.bsize] at hsize
  unfold cacheDiskAppend
  rcases writei_spec hf (encodeSlot rec) (Nat.le_refl _) (by omega) with
    ⟨hmax, heq⟩ | ⟨hmax, k, hk, g, heq, hw, hshort⟩
  · -- refused: nothing was written
    rw [hrec] at hmax
    refine ⟨false, iupdate (f.setSize f.ip.size), ?_, hf.iupdate, rfl, ?_, rfl⟩
    · rw [heq]
      rfl
    · refine iff_of_false (by simp) fun h => ?_
      have := h.1
      rw [File.length_content] at this
      exact absurd this (Nat.not_le_of_lt hmax)
  rw [hrec] at hk hshort hmax
  rw [heq, Option.map_some]
  have htake : ((encodeSlot rec).take k).length = k := by
    rw [List.length_take, hrec, Nat.min_eq_left hk]
  have hroom := hasRoom_iff_complete hf hmax hk hw hshort
  by_cases hfull : k = 344
  · obtain rfl := hfull
    have hmx : max f.ip.size (f.ip.size + 344) = f.ip.size + 344 := by omega
    have hall : (encodeSlot rec).take 344 = encodeSlot rec := List.take_of_length_le hrec.le
    have hnew := hw.content_new hf
    rw [htake, hall] at hnew
    rw [hmx]
    refine ⟨true, _, rfl, (hw.wf_setSize hf (Nat.le_refl _) ?_ hmax).iupdate, rfl, ?_, hnew⟩
    · rw [htake]
      exact Nat.le_max_right _ _
    · exact iff_of_true rfl (hroom.mpr rfl)
  · have hne : (k : Int) ≠ 344 := by omega
    simp only [if_pos hne]
    refine ⟨false, _, rfl, (hw.wf_setSize hf (Nat.le_refl _) ?_ hf.size_le).iupdate, rfl, ?_, ?_⟩
    · exact Nat.le_max_left _ _
    · exact iff_of_false (by simp) fun h => hfull (hroom.mp h)
    · have hold := hw.content_old hf
      exact hold

/-- The same append on the list of bytes, with the blocks the file has behind it. -/
theorem cacheDiskAppend_refines {f g : File} {rec : CacheSlot} {ok : Bool}
    (hroom : ok = true ↔ HasRoom (blocksOf g) (some f.content))
    (hcontent : g.content = if ok then f.content ++ encodeSlot rec else f.content) :
    Cache.cacheDiskAppend (blocksOf g) rec (some f.content) = some g.content := by
  rw [← appendOk_iff_hasRoom _ rec] at hroom
  rcases cacheDiskAppend_eq (blocksOf g) rec f.content with ⟨hok, heq⟩ | ⟨hno, heq⟩
  · rw [heq, hcontent, if_pos (hroom.mpr hok)]
  · rw [heq, hcontent, if_neg fun h => hno (hroom.mp h)]

/-! ## A scan -/

/-- The loop from a record on goes through the rest of the records and changes nothing. -/
theorem scanLoop_eq {σ : Type*} (visit : σ → CacheSlot → σ) {f : File} (hf : f.Wf) {fuel i : Nat}
    (hfuel : f.ip.size / 344 ≤ i + fuel) (s : σ) :
    scanLoop visit f.ip.size fuel s f (i * 344) =
      some (((diskRecords (some f.content)).drop i).foldl visit s, f) := by
  have hlen : (diskRecords (some f.content)).length = f.ip.size / 344 := by
    simp [diskRecords, FixedCodec.records, slotCodec]
  induction fuel generalizing i s with
  | zero =>
    rw [List.drop_eq_nil_of_le (by omega)]
    rfl
  | succ fuel ih =>
    rw [scanLoop]
    by_cases hin : i * 344 + 344 ≤ f.ip.size
    · have hi : i < (diskRecords (some f.content)).length := by omega
      have hrec : (diskRecords (some f.content))[i] =
          (decodeSlot ((f.content.drop (i * 344)).take 344)).terminate := by
        simp [diskRecords, FixedCodec.records, FixedCodec.chunk, slotCodec]
      have hfull : ((f.content.drop (i * 344)).take 344).length = 344 := by
        simp
        omega
      rw [if_pos hin, readi_eq hf hin]
      simp only [hfull, ne_eq, not_true_eq_false, if_false]
      have hnext := ih (i := i + 1) (by omega)
        (visit s (decodeSlot ((f.content.drop (i * 344)).take 344)).terminate)
      rw [Nat.add_mul, Nat.one_mul] at hnext
      rw [hnext, List.drop_eq_getElem_cons hi, List.foldl_cons, hrec]
    · rw [if_neg hin, List.drop_eq_nil_of_le (by omega)]
      rfl

theorem scan_eq {σ : Type*} (visit : σ → CacheSlot → σ) {f : File} (hf : f.Wf) (s : σ) :
    scan visit s f = some ((diskRecords (some f.content)).foldl visit s, f) := by
  have hfuel : f.ip.size / 344 ≤ 0 + f.ip.size := by omega
  have := scanLoop_eq visit hf hfuel s
  rwa [Nat.zero_mul, List.drop_zero] at this

/-- A scan goes through the records of the content. -/
theorem scannedRecords_eq {f : File} (hf : f.Wf) :
    scannedRecords f = some (diskRecords (some f.content)) := by
  have hall : ∀ recs acc : List CacheSlot,
      recs.foldl (fun recs rec => recs ++ [rec]) acc = acc ++ recs := by
    intro recs
    induction recs with
    | nil => simp
    | cons rec recs ih => simp [ih]
  rw [scannedRecords, scan_eq _ hf, hall]
  rfl

theorem cacheDiskScan_refines {f : File} (hf : f.Wf) (role : CString) (key : UInt64) (qsig : Sig) :
    cacheDiskScan role key qsig f =
      some (Cache.cacheDiskScan role key qsig (some f.content), f) := by
  rw [cacheDiskScan, scan_eq _ hf, Option.map_some, Cache.cacheDiskScan]
  dsimp only
  generalize (diskRecords (some f.content)).foldl (scanStep role key qsig) ⟨none, .init⟩ = s
  cases s.exact with
  | some rec => rfl
  | none => cases s.sem.item <;> rfl

/-! ## Steps -/

/-- The file between two operations, and the records it holds. -/
structure Aligned (s : BlockState) : Prop where
  wf : s.file.Wf
  dip : s.file.dip = s.file.ip
  dvd : 344 ∣ s.file.ip.size
  log : slotCodec.records s.file.content = s.log

/-- The cache with the content of the file. -/
def view (s : BlockState) : CacheState := ⟨s.ram, some s.file.content⟩

section Steps

variable {s : BlockState} (h : Aligned s)
include h

theorem Aligned.append {rec : CacheSlot} {ok : Bool} {g : File} (hwf : g.Wf)
    (hdip : g.dip = g.ip)
    (hcontent : g.content = if ok then s.file.content ++ encodeSlot rec else s.file.content)
    (ram : RamTable) : Aligned ⟨ram, g, if ok then s.log ++ [rec] else s.log⟩ := by
  have hdvd : slotCodec.width ∣ s.file.content.length := by
    rw [File.length_content]
    exact h.dvd
  cases ok with
  | true =>
    rw [if_pos rfl] at hcontent
    refine ⟨hwf, hdip, ?_, ?_⟩
    · rw [← File.length_content, hcontent]
      exact slotCodec.dvd_length_append hdvd rec
    · rw [hcontent, if_pos rfl, ← h.log]
      exact slotCodec.records_append hdvd rec
  | false =>
    have hcontent : g.content = s.file.content := hcontent
    refine ⟨hwf, hdip, ?_, ?_⟩
    · rw [← File.length_content, hcontent]
      exact hdvd
    · rw [hcontent]
      exact h.log

theorem cacheSet_spec (valid : Bool) (junk : CacheSlot) (role prompt val : CString) :
    ∃ stored t, cacheSet valid junk s role prompt val = some (stored, t) ∧ Aligned t ∧
      ∃ bmap, Cache.cacheSet bmap junk (view s) role prompt val = (stored, view t) := by
  unfold cacheSet Cache.cacheSet
  simp only [view]
  generalize newSlot junk role prompt val = rec
  by_cases hslot : freeOrMatch rec.key s.ram = true
  · obtain ⟨ok, g, heq, hwf, hdip, hroom, hcontent⟩ := cacheDiskAppend_spec h.wf rec
    rw [if_pos hslot, ilock_eq h.dip, heq, Option.map_some]
    refine ⟨true, _, rfl, h.append hwf hdip hcontent _, blocksOf g, ?_⟩
    simp [hslot, cacheDiskAppend_refines hroom hcontent]
  · rw [if_neg hslot]
    exact ⟨false, s, rfl, h, fun _ => true, by simp [hslot]⟩

theorem cacheGet_spec (valid : Bool) (role prompt : CString) (out : List UInt8) (outmax : Int) :
    ∃ hit out' t, cacheGet valid s role prompt out outmax = some (hit, out', t) ∧ Aligned t ∧
      Cache.cacheGet (view s) role prompt out outmax = ⟨hit, out', view t⟩ := by
  unfold cacheGet Cache.cacheGet
  simp only [view]
  cases ramExact (cacheFnv1a role prompt) s.ram with
  | some rec => exact ⟨_, _, _, rfl, h, rfl⟩
  | none =>
    cases ramSemantic role (cacheSig prompt) s.ram with
    | some rec => exact ⟨_, _, _, rfl, h, rfl⟩
    | none =>
      simp only [ilock_eq h.dip, cacheDiskScan_refines h.wf, Option.map_some]
      cases Cache.cacheDiskScan role (cacheFnv1a role prompt) (cacheSig prompt)
          (some s.file.content) with
      | some promo => exact ⟨_, _, _, rfl, ⟨h.wf, h.dip, h.dvd, h.log⟩, rfl⟩
      | none => exact ⟨_, _, _, rfl, h, rfl⟩

theorem cacheClear_spec (valid : Bool) (disk : Int) :
    ∃ t, cacheClear valid disk s = some t ∧ Aligned t ∧
      Cache.cacheClear disk (view s) = view t := by
  unfold cacheClear Cache.cacheClear
  by_cases hdisk : disk = 0
  · simp only [hdisk, ne_eq, not_true_eq_false, if_false]
    exact ⟨_, rfl, ⟨h.wf, h.dip, h.dvd, h.log⟩, rfl⟩
  · obtain ⟨d, heq, hboot⟩ := itrunc_spec h.wf
    simp only [ne_eq, hdisk, not_false_eq_true, if_true, ilock_eq h.dip, heq, Option.map_some]
    exact ⟨_, rfl, ⟨File.empty_wf hboot, rfl, dvd_zero _, slotCodec.records_nil⟩, rfl⟩

theorem otherStep_spec (b : Nat) (used : Bool) (bytes : Nat → UInt8) :
    Aligned { s with file := otherStep s.file b used bytes } ∧
      (otherStep s.file b used bytes).content = s.file.content := by
  unfold otherStep
  by_cases hguard : b ≠ 0 ∧ ∀ k ≤ Fs.maxfile, s.file.block k ≠ b
  · obtain ⟨hb, hown⟩ := hguard
    rw [if_pos ⟨hb, hown⟩]
    obtain ⟨hwf, hcontent⟩ := h.wf.frame (g := { s.file with disk :=
        { s.file.disk with used := Function.update s.file.disk.used b used }.write b bytes }) rfl
      ((Function.update_of_ne hb.symm ..).trans h.wf.boot)
      (fun k hk hne => (Function.update_of_ne (hown k hk) ..).trans (h.wf.used k hk hne))
      (fun k hk _ => Function.update_of_ne (hown k hk) ..)
    exact ⟨⟨hwf, h.dip, h.dvd, hcontent ▸ h.log⟩, hcontent⟩
  · rw [if_neg hguard]
    exact ⟨h, rfl⟩

/-- No step panics; each keeps the file aligned and does to its content what operations on a list
of bytes do. -/
theorem blockNext_refines (op : BlockOp) :
    ∃ t, blockNext s op = some t ∧ Aligned t ∧
      ∃ ops : List CacheOp, ∀ log, (ops.foldl cacheStep ⟨view s, log⟩).st = view t := by
  cases op with
  | set valid junk role prompt val =>
    obtain ⟨stored, t, heq, ht, bmap, hset⟩ := cacheSet_spec h valid junk role prompt val
    exact ⟨t, by simp [blockNext, heq], ht, [.set bmap junk role prompt val],
      fun log => by simp [cacheStep, hset]⟩
  | get valid role prompt out outmax =>
    obtain ⟨hit, out', t, heq, ht, hget⟩ := cacheGet_spec h valid role prompt out outmax
    exact ⟨t, by simp [blockNext, heq], ht, [.get role prompt out outmax],
      fun log => by simp [cacheStep, hget]⟩
  | clear valid disk =>
    obtain ⟨t, heq, ht, hclear⟩ := cacheClear_spec h valid disk
    exact ⟨t, heq, ht, [.clear disk], fun log => by simp [cacheStep, hclear]⟩
  | other b used bytes =>
    obtain ⟨ht, hcontent⟩ := otherStep_spec h b used bytes
    exact ⟨_, rfl, ht, [], fun log => by simp [view, hcontent]⟩

end Steps

/-! ## Runs -/

/-- Every run on blocks is a run on the list of bytes. -/
theorem exec_refines {s : BlockState} (h : Aligned s) (ops : List BlockOp) :
    ∃ t, exec blockNext s ops = some t ∧ Aligned t ∧
      ∃ ops : List CacheOp, ∀ log, (ops.foldl cacheStep ⟨view s, log⟩).st = view t := by
  induction ops generalizing s with
  | nil => exact ⟨s, rfl, h, [], fun _ => rfl⟩
  | cons op ops ih =>
    obtain ⟨u, hu, halign, first, hfirst⟩ := blockNext_refines h op
    obtain ⟨t, ht, htalign, rest, hrest⟩ := ih halign
    refine ⟨t, by rw [exec_cons, hu, Option.bind_some, ht], htalign, first ++ rest, fun log => ?_⟩
    rw [List.foldl_append, ← hrest (first.foldl cacheStep ⟨view s, log⟩).log, ← hfirst log]

/-- In every run from a file of whole records, nothing panics and a scan goes through the records
whose append succeeded, in order. The next append adds a whole record or nothing. -/
theorem overlay_all_or_nothing {f : File} (hf : f.Wf) (hdip : f.dip = f.ip)
    (hdvd : 344 ∣ f.ip.size) (ram : RamTable) (ops : List BlockOp) :
    ∃ t, exec blockNext ⟨ram, f, slotCodec.records f.content⟩ ops = some t ∧
      344 ∣ t.file.ip.size ∧
      (∀ valid, scannedRecords (ilock valid t.file) = some (t.log.map CacheSlot.terminate)) ∧
      ∀ valid rec, ∃ ok g, cacheDiskAppend rec (ilock valid t.file) = some (ok, g) ∧
        344 ∣ g.ip.size ∧
        g.content = if ok then t.file.content ++ encodeSlot rec else t.file.content := by
  obtain ⟨t, hrun, ht, -⟩ := exec_refines (s := ⟨ram, f, slotCodec.records f.content⟩)
    ⟨hf, hdip, hdvd, rfl⟩ ops
  refine ⟨t, hrun, ht.dvd, fun valid => ?_, fun valid rec => ?_⟩
  · rw [ilock_eq ht.dip, scannedRecords_eq ht.wf, diskRecords, ht.log]
  · obtain ⟨ok, g, heq, hwf, hgdip, -, hcontent⟩ := cacheDiskAppend_spec ht.wf rec
    rw [ilock_eq ht.dip]
    exact ⟨ok, g, heq, (ht.append hwf hgdip hcontent ram).dvd, hcontent⟩

/-- A disk of four blocks with one free. -/
def fullDisk : Disk := ⟨4, by decide, fun b => b != 2, fun _ _ => 0⟩

def beforeStores : BlockState :=
  ⟨.replicate _ .zero, .empty fullDisk, slotCodec.records (File.empty fullDisk).content⟩

def storePrompt (prompt : String) : BlockOp :=
  .set true .zero (.lit "r") (.lit prompt) (.lit "v")

/-- The third of four stores is cut at the end of the first block; the rest of the system frees a
block before the fourth. -/
def fourStores : List BlockOp :=
  [storePrompt "a", storePrompt "b", storePrompt "c", .other 3 false fun _ => 0, storePrompt "d"]

theorem fourStores_all_or_nothing :
    ∃ t, exec blockNext beforeStores fourStores = some t ∧
      t.log = ["a", "b", "d"].map (fun prompt =>
        newSlot .zero (.lit "r") (.lit prompt) (.lit "v")) ∧
      ∀ valid, scannedRecords (ilock valid t.file) = some (t.log.map CacheSlot.terminate) := by
  obtain ⟨t, hrun, -, hscan, -⟩ := overlay_all_or_nothing (File.empty_wf (d := fullDisk) rfl) rfl
    (by decide) (.replicate _ .zero) fourStores
  have hlog : (exec blockNext beforeStores fourStores).map BlockState.log =
      some (["a", "b", "d"].map fun prompt =>
        newSlot .zero (.lit "r") (.lit prompt) (.lit "v")) := by
    decide +kernel
  refine ⟨t, hrun, ?_, hscan⟩
  rw [show exec blockNext beforeStores fourStores = some t from hrun] at hlog
  exact Option.some.inj hlog

end LiberalOS.Cache.OnBlocks
