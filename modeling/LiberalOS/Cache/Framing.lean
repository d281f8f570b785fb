import LiberalOS.Cache.Durability

/-!
# Foreign content in front of the records

User programs can write `/cache.bin`. A scan strides over the file from its start, an append goes to
its end, and the two agree about where records are only if the end is a multiple of the record size.
From any such length on every appended record is found again, whatever the content before it is;
from no other length is this so.

## Main results

* `tolerates_iff_aligned` — the lengths of foreign content that appended records survive.
-/
namespace LiberalOS.Cache
open Foundation Kernel

/-! ## Statement -/

/-- A call of `cache_set` with the environment's part in it. -/
structure Store where
  bmap : Nat → Bool
  junk : CacheSlot
  role : CString
  prompt : CString
  val : CString

namespace Store

def key (x : Store) : UInt64 := cacheFnv1a x.role x.prompt

def record (x : Store) : CacheSlot := newSlot x.junk x.role x.prompt x.val

def run (st : CacheState) (x : Store) : CacheState :=
  (cacheSet x.bmap x.junk st x.role x.prompt x.val).2

end Store

/-- The stores return 1, one after the other, and their appends succeed. -/
def AllStored : CacheState → List Store → Prop
  | _, [] => True
  | st, x :: xs => (cacheSet x.bmap x.junk st x.role x.prompt x.val).1 = true ∧
      AppendOk x.bmap x.record st.disk ∧ AllStored (x.run st) xs

instance decidableAllStored : ∀ st stores, Decidable (AllStored st stores)
  | _, [] => isTrue trivial
  | st, x :: xs =>
    have := decidableAllStored (x.run st) xs
    inferInstanceAs (Decidable (_ ∧ _ ∧ _))

/-- After a clear of RAM, a lookup of the pair with a buffer for whole values hits and delivers the
value of the store. -/
def AnsweredAfterClear (st : CacheState) (x : Store) : Prop :=
  ∀ (out : List UInt8) (outmax : Int), 192 ≤ outmax → outmax ≤ out.length →
    (cacheGet (cacheClear 0 st) x.role x.prompt out outmax).hit = true ∧
      cstr (cacheGet (cacheClear 0 st) x.role x.prompt out outmax).out = x.val.bytes.take 191

/-- With this content of the file and any RAM table: among stores whose keys no record of the
content carries, the last one of every key is answered. -/
def Tolerates (file : List UInt8) : Prop :=
  ∀ (ram : RamTable) (stores : List Store), AllStored ⟨ram, some file⟩ stores →
    (∀ x ∈ stores, ∀ rec ∈ diskRecords (some file), rec.key ≠ x.key) →
    ∀ before x after, stores = before ++ x :: after → (∀ y ∈ after, y.key ≠ x.key) →
      AnsweredAfterClear (stores.foldl Store.run ⟨ram, some file⟩) x

/-! ## Aligned content -/

theorem Store.disk_run {st : CacheState} {x : Store}
    (h : (cacheSet x.bmap x.junk st x.role x.prompt x.val).1 = true) :
    (x.run st).disk = cacheDiskAppend x.bmap x.record st.disk := by
  simp only [Store.run, Store.record, cacheSet] at h ⊢
  rw [if_pos h]

/-- What the last record with the key delivers after a clear. -/
theorem answeredAfterClear_of_lastFor {st : CacheState} {x : Store} {rec : CacheSlot}
    (h : lastFor CacheSlot.key x.key (diskRecords st.disk) = some rec)
    (hval : rec.valStr = x.val.bytes.take 191) : AnsweredAfterClear st x := by
  intro out outmax h1 h2
  have hhit : hitRecord (cacheClear 0 st) x.role x.prompt = some rec := by
    rw [hitRecord_cacheClear, cacheDiskScan_eq]
    simp only [Store.key] at h
    rw [h, Option.some_or]
  have hstr := cstr_copyValue (show 1 ≤ outmax by omega) h2 rec
  rw [hval, List.take_take, Nat.min_eq_right (by omega)] at hstr
  rw [cacheGet_eq, hhit]
  exact ⟨rfl, hstr⟩

/-- From an aligned file on, every store adds its record to what a scan sees. -/
theorem AllStored.diskRecords {st : CacheState} {stores : List Store} (h : AllStored st stores)
    (haligned : ∀ file, st.disk = some file → 344 ∣ file.length) :
    diskRecords (stores.foldl Store.run st).disk =
      diskRecords st.disk ++ stores.map fun x => x.record.terminate := by
  induction stores generalizing st with
  | nil => simp
  | cons x xs ih =>
    obtain ⟨hstored, hok, hrest⟩ := h
    have hdisk := Store.disk_run hstored
    have hnext : ∀ file, (x.run st).disk = some file → 344 ∣ file.length := by
      rw [hdisk]
      exact aligned_cacheDiskAppend haligned x.bmap x.record
    rw [List.foldl_cons, ih hrest hnext, hdisk]
    rcases diskRecords_cacheDiskAppend haligned x.bmap x.record with ⟨-, hrecs⟩ | ⟨hno, -⟩
    · simp [hrecs]
    · exact absurd hok hno

theorem tolerates_of_aligned {file : List UInt8} (h : 344 ∣ file.length) : Tolerates file := by
  intro ram stores hstored _ before x after hsplit hlast
  have haligned : ∀ f, (⟨ram, some file⟩ : CacheState).disk = some f → 344 ∣ f.length := by
    rintro f ⟨⟩
    exact h
  have hmade : MadeFrom x.record.terminate ⟨x.role, x.prompt, x.val⟩ :=
    (newSlot_madeFrom x.junk x.role x.prompt x.val).terminate
  suffices hrec : lastFor CacheSlot.key x.key
      (diskRecords (stores.foldl Store.run ⟨ram, some file⟩).disk) = some x.record.terminate from
    answeredAfterClear_of_lastFor hrec hmade.val
  have hother : ∀ rec ∈ after.map fun y => y.record.terminate, rec.key ≠ x.key := by
    intro rec hrec
    obtain ⟨y, hy, rfl⟩ := List.mem_map.mp hrec
    exact hlast y hy
  rw [hstored.diskRecords haligned, hsplit, List.map_append, List.map_cons, ← List.append_assoc]
  have hkey : x.record.terminate.key = x.key := rfl
  exact lastFor_append_cons hkey hother _

/-! ## Unaligned content -/

/-- A record that starts with a zero byte has a key with that low byte. -/
theorem key_decodeSlot_of_zero {bs : List UInt8} (h : bs.getD 0 0 = 0) :
    (decodeSlot bs).key.toNat % 256 = 0 := by
  cases bs with
  | nil => rfl
  | cons b bs =>
    obtain rfl : b = 0 := by simpa using h
    simp only [decodeSlot, wordField, List.drop_zero, List.take_succ_cons, leNat,
      UInt64.toNat_ofNat']
    simp

/-- A record of a one-letter role has the letter at the front of its role field. -/
theorem getD_of_sameRole {bs : List UInt8} {role : CString} {c : UInt8} (hrole : role.bytes = [c])
    (h : sameRole role (decodeSlot bs).terminate = true) : bs.getD 8 0 = c := by
  have hstr : (cstr (decodeSlot bs).role.toList).take 16 = [c] := by
    have hcmp : strncmp (decodeSlot bs).role.toList role.bytes 16 = 0 := by
      simpa [sameRole, CacheSlot.terminate] using h
    rw [strncmp_eq_zero_iff, role.cstr_bytes, hrole] at hcmp
    simpa using hcmp
  have hfirst : (decodeSlot bs).role.toList = bs.getD 8 0 :: (decodeSlot bs).role.toList.tail := by
    rfl
  rw [hfirst, cstr_cons] at hstr
  split at hstr
  · simp at hstr
  · simpa using (List.cons.inj hstr).1

/-- The store that does not come back: a role of one letter that is no byte of the key. -/
def framedStore : Store := ⟨fun _ => true, .zero, .lit "p", .lit "list files", .lit "A"⟩

theorem wordBytes_framedStore_ne : ∀ b ∈ wordBytes framedStore.key, b ≠ 112 := by
  have hall : (wordBytes framedStore.key).all (· != 112) = true := by decide +kernel
  intro b hb
  simpa using List.all_eq_true.mp hall b hb

theorem getElem?_encodeSlot_lt {rec : CacheSlot} {j : Nat} (h : j < 8) :
    (encodeSlot rec)[j]? = (wordBytes rec.key)[j]? := by
  rw [encodeSlot, List.getElem?_append_left (by simpa using h)]

theorem getD_chunk (file : List UInt8) (i : Nat) {j : Nat} (h : j < 344) :
    (slotCodec.chunk file i).getD j 0 = file.getD (344 * i + j) 0 := by
  rw [List.getD_eq_getElem?_getD, List.getD_eq_getElem?_getD, slotCodec.getElem?_chunk file i h,
    show slotCodec.width = 344 from rfl, Nat.mul_comm]

/-- A record whose key starts in the zeros is another one. -/
theorem key_chunk_ne_of_zero {file : List UInt8} {i : Nat} (h : file.getD (344 * i) 0 = 0) :
    (slotCodec.decode (slotCodec.chunk file i)).terminate.key ≠
      cacheFnv1a framedStore.role framedStore.prompt := by
  have hlow := key_decodeSlot_of_zero ((getD_chunk file i (by decide)).trans h)
  have hne : (cacheFnv1a framedStore.role framedStore.prompt).toNat % 256 ≠ 0 := by decide +kernel
  intro hkey
  rw [← hkey] at hne
  exact hne hlow

theorem getD_replicate_zero_append (n m : Nat) (bs : List UInt8) (h : m < n) :
    (List.replicate n 0 ++ bs).getD m 0 = 0 := by
  rw [List.getD_eq_getElem?_getD, List.getElem?_append_left (by simpa using h)]
  simp [h]

/-- Behind zeros of any other length the record falls between two strides. -/
theorem scan_misses_unaligned {n : Nat} (h : ¬ 344 ∣ n) :
    ∀ rec ∈ diskRecords (some (List.replicate n 0 ++ encodeSlot framedStore.record)),
      ¬ rec.Answers framedStore.role framedStore.prompt := by
  intro rec hrec
  simp only [diskRecords, FixedCodec.records, List.mem_map, List.mem_range, List.length_append,
    List.length_replicate, length_encodeSlot, show slotCodec.width = 344 from rfl] at hrec
  obtain ⟨raw, ⟨i, hi, rfl⟩, rfl⟩ := hrec
  have hstrict : 344 * i < n := Nat.lt_of_le_of_ne (by omega) fun heq => h ⟨i, heq.symm⟩
  rintro (hkey | ⟨hrole, -⟩)
  · exact key_chunk_ne_of_zero (getD_replicate_zero_append n _ _ hstrict) hkey
  · -- the role starts in the zeros or in the key
    have hfirst := getD_of_sameRole (c := 112) rfl hrole
    rw [getD_chunk _ _ (by decide)] at hfirst
    by_cases hin : 344 * i + 8 < n
    · rw [getD_replicate_zero_append n _ _ hin] at hfirst
      cases hfirst
    · rw [List.getD_eq_getElem?_getD, List.getElem?_append_right (by simpa using hin),
        List.length_replicate, getElem?_encodeSlot_lt (by omega)] at hfirst
      have hj : 344 * i + 8 - n < (wordBytes framedStore.record.key).length := by simp; omega
      rw [List.getElem?_eq_getElem hj, Option.getD_some] at hfirst
      exact wordBytes_framedStore_ne _ (List.getElem_mem hj) hfirst

theorem not_tolerates_of_unaligned {n : Nat} (hroom : n + 344 ≤ maxfile * bsize)
    (h : ¬ 344 ∣ n) : ¬ Tolerates (List.replicate n 0) := by
  intro htol
  let st : CacheState := ⟨.replicate _ .zero, some (List.replicate n 0)⟩
  have hset : (cacheSet framedStore.bmap framedStore.junk st framedStore.role framedStore.prompt
      framedStore.val).1 = true := by
    change freeOrMatch framedStore.key (.replicate _ .zero) = true
    decide +kernel
  have hok : AppendOk framedStore.bmap framedStore.record st.disk := by
    refine (appendOk_iff_hasRoom _ _ _).mpr ⟨?_, fun _ _ => Bool.or_true _⟩
    simpa using hroom
  have hdisk : (framedStore.run st).disk =
      some (List.replicate n 0 ++ encodeSlot framedStore.record) := by
    rw [Store.disk_run hset]
    rcases cacheDiskAppend_eq framedStore.bmap framedStore.record (List.replicate n 0) with
      ⟨-, heq⟩ | ⟨hno, -⟩
    · exact heq
    · exact absurd hok hno
  have hforeign : ∀ x ∈ [framedStore], ∀ rec ∈ diskRecords (some (List.replicate n 0)),
      rec.key ≠ x.key := by
    intro x hx rec hrec
    obtain rfl := List.mem_singleton.mp hx
    simp only [diskRecords, FixedCodec.records, List.mem_map, List.mem_range,
      List.length_replicate, show slotCodec.width = 344 from rfl] at hrec
    obtain ⟨raw, ⟨i, hi, rfl⟩, rfl⟩ := hrec
    rw [Store.key]
    refine key_chunk_ne_of_zero ?_
    rw [← List.append_nil (List.replicate n 0)]
    exact getD_replicate_zero_append n (344 * i) [] (by omega)
  have hanswered := htol (.replicate _ .zero) [framedStore] ⟨hset, hok, trivial⟩ hforeign []
    framedStore [] rfl (by simp)
  obtain ⟨hhit, -⟩ := hanswered (List.replicate 192 0) 192 (by decide)
    (by rw [List.length_replicate]; decide)
  have hmiss := cacheDiskScan_eq_none_iff.mpr (scan_misses_unaligned h)
  rw [← hdisk] at hmiss
  rw [cacheGet_eq, List.foldl_cons, List.foldl_nil, hitRecord_cacheClear, hmiss] at hhit
  cases hhit

/-- For every length that leaves room for a record: appended records are found behind any content
of that length exactly if it is a multiple of the record size. -/
theorem tolerates_iff_aligned {n : Nat} (hroom : n + 344 ≤ maxfile * bsize) :
    (∀ file : List UInt8, file.length = n → Tolerates file) ↔ 344 ∣ n := by
  constructor
  · intro h
    by_contra hno
    exact not_tolerates_of_unaligned hroom hno (h _ List.length_replicate)
  · rintro h file rfl
    exact tolerates_of_aligned h

/-- A file of the length of one record. -/
theorem oneRecord_tolerates : Tolerates (List.replicate 344 7) :=
  (tolerates_iff_aligned (by decide)).mpr (dvd_refl 344) _ List.length_replicate

/-- A file of a single byte. -/
theorem foreign_byte_hides_records : ¬ ∀ file : List UInt8, Tolerates file :=
  fun h => not_tolerates_of_unaligned (n := 1) (by decide) (by decide) (h _)

end LiberalOS.Cache
