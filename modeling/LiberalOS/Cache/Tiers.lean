import LiberalOS.Cache.Framing

/-!
# RAM and the overlay as tiers of one lookup

The two tiers are searched by loops of different shapes: two passes over the slots that stop early,
and one pass over the records that keeps two candidates. On the same records they choose the same
one. A lookup that is answered from the overlay copies the record into RAM, and asking again gives
the same answer, from whichever tier it then comes.

## Main results

* `ram_and_disk_agree` — stores of distinct keys are answered from RAM, and alike from the overlay
  once RAM is cleared.
* `repeated_lookup` — a second lookup returns what the first one did and changes nothing.
-/
namespace LiberalOS.Cache
open Foundation Kernel

/-! ## The choice among records -/

theorem argmax_map_terminate (f : CacheSlot → Nat)
    (hf : ∀ rec : CacheSlot, f rec.terminate = f rec) (recs : List CacheSlot) :
    (recs.map CacheSlot.terminate).argmax f = (recs.argmax f).map CacheSlot.terminate := by
  induction recs using List.reverseRecOn with
  | nil => rfl
  | append_singleton recs rec ih =>
    rw [List.map_append, List.map_singleton, List.argmax_concat, List.argmax_concat, ih]
    cases recs.argmax f with
    | none => rfl
    | some best =>
      simp only [Option.map_some, hf]
      split <;> rfl

theorem semanticCandidates_map_terminate (role : CString) (k : UInt64) (recs : List CacheSlot) :
    semanticCandidates role k (recs.map CacheSlot.terminate) =
      (semanticCandidates role k recs).map CacheSlot.terminate := by
  rw [semanticCandidates, List.filter_map]
  rfl

/-- The scan's store behind each value has no part in the choice. -/
theorem semanticMatch_map_terminate (role : CString) (k : UInt64) (qsig : Sig)
    (recs : List CacheSlot) :
    semanticMatch role k qsig (recs.map CacheSlot.terminate) =
      (semanticMatch role k qsig recs).map CacheSlot.terminate := by
  rw [semanticMatch, semanticCandidates_map_terminate, argmax_map_terminate _ (fun _ => rfl),
    semanticMatch]
  cases (semanticCandidates role k recs).argmax fun r => sigMatch qsig r.sig with
  | none => rfl
  | some best =>
    by_cases hover : sigOverThreshold (sigMatch qsig best.sig) <;>
      simp [Option.filter, hover, CacheSlot.terminate]

/-- Among records with distinct keys the first and the last one with a key are the same. -/
theorem lastFor_eq_find? {recs : List CacheSlot} (h : (recs.map CacheSlot.key).Nodup)
    (k : UInt64) : lastFor CacheSlot.key k recs = recs.find? fun s => s.key == k := by
  cases hfind : recs.find? fun s => s.key == k with
  | none =>
    rw [lastFor_eq_none_iff]
    simpa using hfind
  | some rec =>
    obtain ⟨hkey, before, after, rfl, -⟩ := List.find?_eq_some_iff_append.mp hfind
    have hk : rec.key = k := by simpa using hkey
    refine lastFor_append_cons hk (fun s hs heq => ?_) before
    rw [List.map_append, List.map_cons, List.nodup_append] at h
    exact (List.nodup_cons.mp h.2.1).1 (List.mem_map.mpr ⟨s, hs, heq.trans hk.symm⟩)

theorem copyValue_congr {rec rec' : CacheSlot} (h : rec.valStr = rec'.valStr) (out : List UInt8)
    (outmax : Int) : copyValue out outmax rec = copyValue out outmax rec' := by
  simp only [copyValue, safestrcpy_congr h]

theorem copyValue_idem (out : List UInt8) (outmax : Int) (rec : CacheSlot) :
    copyValue (copyValue out outmax rec) outmax rec = copyValue out outmax rec := by
  simp only [copyValue]
  split
  · exact safestrcpy_idem _ _ _
  · rfl

/-! ## Stores of distinct keys -/

/-- The first slots of the table hold these records and the others are free. -/
structure Holds (t : RamTable) (recs : List CacheSlot) : Prop where
  occupied : ∀ rec ∈ recs, rec.key ≠ 0
  slots : ∃ free, t.toList = recs ++ free ∧ ∀ s ∈ free, s.key = 0

theorem Holds.of_zero {t : RamTable} (h : ∀ s ∈ t.toList, s.key = 0) : Holds t [] :=
  ⟨by simp, t.toList, rfl, h⟩

/-- A record with a new key goes to the first free slot. -/
theorem Holds.ramPut {t : RamTable} {recs : List CacheSlot} (h : Holds t recs)
    (hroom : recs.length < cacheNslot) {rec : CacheSlot} (hne : rec.key ≠ 0)
    (hnew : ∀ s ∈ recs, s.key ≠ rec.key) :
    freeOrMatch rec.key t = true ∧ Holds (ramPut rec t) (recs ++ [rec]) := by
  obtain ⟨free, ht, hfree⟩ := h.slots
  have hlen : recs.length + free.length = 64 := by
    rw [← List.length_append, ← ht, t.toList_length]
  obtain ⟨old, free, rfl⟩ := List.exists_cons_of_length_pos (l := free) (by simp at hroom; omega)
  have hkey : t.toList.findIdx? (fun s => s.key == rec.key) = none := by
    rw [ht, List.findIdx?_eq_none_iff]
    intro s hs
    rcases List.mem_append.mp hs with hs | hs
    · simpa using hnew s hs
    · simpa [hfree s hs] using Ne.symm hne
  have hzero : t.toList.findIdx? (fun s => s.key == 0) = some recs.length := by
    have hnone : recs.findIdx? (fun s => s.key == 0) = none := by
      rw [List.findIdx?_eq_none_iff]
      intro s hs
      simpa using h.occupied s hs
    rw [ht, List.findIdx?_append, hnone, List.findIdx?_cons, hfree old List.mem_cons_self]
    simp
  refine ⟨?_, ?_, free, ?_, fun s hs => hfree s (List.mem_cons_of_mem _ hs)⟩
  · rw [freeOrMatch, List.any_eq_true]
    exact ⟨old, by simp [ht], by simp [hfree old List.mem_cons_self]⟩
  · intro s hs
    rcases List.mem_append.mp hs with hs | hs
    · exact h.occupied s hs
    · exact List.mem_singleton.mp hs ▸ hne
  · rw [Cache.ramPut, hkey, hzero]
    simp [RamTable.assign, ht]

/-- The appends of the stores succeed, one after the other. -/
def AllAppended : CacheState → List Store → Prop
  | _, [] => True
  | st, x :: xs => AppendOk x.bmap x.record st.disk ∧ AllAppended (x.run st) xs

instance decidableAllAppended : ∀ st stores, Decidable (AllAppended st stores)
  | _, [] => isTrue trivial
  | st, x :: xs =>
    have := decidableAllAppended (x.run st) xs
    inferInstanceAs (Decidable (_ ∧ _))

/-- As long as there are free slots, stores of new keys return 1 and fill the table in order. -/
theorem Holds.stores {st : CacheState} {recs : List CacheSlot} {stores : List Store}
    (h : Holds st.ram recs) (hroom : recs.length + stores.length ≤ cacheNslot)
    (hkeys : (recs.map CacheSlot.key ++ stores.map Store.key).Nodup)
    (happended : AllAppended st stores) :
    AllStored st stores ∧
      Holds (stores.foldl Store.run st).ram (recs ++ stores.map Store.record) := by
  induction stores generalizing st recs with
  | nil => simpa [AllStored] using h
  | cons x xs ih =>
    obtain ⟨hok, hrest⟩ := happended
    have hnew : ∀ s ∈ recs, s.key ≠ x.record.key := by
      intro s hs heq
      rw [List.nodup_append] at hkeys
      exact hkeys.2.2 s.key (List.mem_map_of_mem hs) x.key (by simp) heq
    rw [List.length_cons] at hroom
    obtain ⟨hstored, hput⟩ := h.ramPut (by omega) (cacheFnv1a_ne_zero x.role x.prompt) hnew
    have hram : (x.run st).ram = Cache.ramPut x.record st.ram := by
      have hstored' : freeOrMatch (newSlot x.junk x.role x.prompt x.val).key st.ram = true :=
        hstored
      simp only [Store.run, cacheSet, hstored', if_true]
      rfl
    rw [← hram] at hput
    have hkeys' : ((recs ++ [x.record]).map CacheSlot.key ++ xs.map Store.key).Nodup := by
      have hx : x.record.key = x.key := rfl
      simpa [hx] using hkeys
    have hroom' : (recs ++ [x.record]).length + xs.length ≤ cacheNslot := by
      rw [List.length_append, List.length_singleton]
      omega
    obtain ⟨hall, hend⟩ := ih hput hroom' hkeys' hrest
    refine ⟨⟨hstored, hok, hall⟩, ?_⟩
    simpa using hend

/-- The exact loop passes over the free slots. -/
theorem Holds.ramExact {t : RamTable} {recs : List CacheSlot} (h : Holds t recs) {k : UInt64}
    (hk : k ≠ 0) : Cache.ramExact k t = recs.find? fun s => s.key == k := by
  obtain ⟨free, ht, hfree⟩ := h.slots
  have hnone : free.find? (fun s => s.key == k) = none := by
    rw [List.find?_eq_none]
    intro s hs
    simpa [hfree s hs] using Ne.symm hk
  rw [Cache.ramExact, ht, List.find?_append, hnone, Option.or_none]

/-- Where no record has the key, the loops over RAM and over the overlay have the same
candidates. -/
theorem Holds.ramSemantic {t : RamTable} {recs : List CacheSlot} (h : Holds t recs)
    (role : CString) (qsig : Sig) {k : UInt64} (hk : ∀ rec ∈ recs, rec.key ≠ k) :
    Cache.ramSemantic role qsig t = semanticMatch role k qsig recs := by
  obtain ⟨free, ht, hfree⟩ := h.slots
  have hnone : semanticCandidates role 0 free = [] := by
    rw [semanticCandidates, List.filter_eq_nil_iff]
    intro s hs
    simp [hfree s hs]
  have hsame : semanticCandidates role 0 recs = semanticCandidates role k recs := by
    refine List.filter_congr fun rec hrec => ?_
    simp [h.occupied rec hrec, hk rec hrec]
  have hcand : semanticCandidates role 0 t.toList = semanticCandidates role k recs := by
    rw [← hsame, ht, semanticCandidates, List.filter_append]
    simp only [semanticCandidates] at hnone
    rw [hnone, List.append_nil]
    rfl
  rw [ramSemantic_eq, semanticMatch, hcand, semanticMatch]

/-- The two tiers choose the same record, which the scan terminates. -/
theorem Holds.disk_choice {st : CacheState} {recs : List CacheSlot} (h : Holds st.ram recs)
    (hkeys : (recs.map CacheSlot.key).Nodup)
    (hdisk : diskRecords st.disk = recs.map CacheSlot.terminate) (role prompt : CString) :
    cacheDiskScan role (cacheFnv1a role prompt) (cacheSig prompt) st.disk =
      ((Cache.ramExact (cacheFnv1a role prompt) st.ram).or
        (Cache.ramSemantic role (cacheSig prompt) st.ram)).map CacheSlot.terminate := by
  have hkey : ∀ rec : CacheSlot, rec.terminate.key = rec.key := fun _ => rfl
  rw [cacheDiskScan_eq, hdisk, lastFor_map hkey, lastFor_eq_find? hkeys,
    h.ramExact (cacheFnv1a_ne_zero role prompt), semanticMatch_map_terminate]
  cases hfind : recs.find? fun s => s.key == cacheFnv1a role prompt with
  | some rec => rfl
  | none =>
    have hother : ∀ rec ∈ recs, rec.key ≠ cacheFnv1a role prompt := by simpa using hfind
    rw [h.ramSemantic role (cacheSig prompt) hother]
    rfl

/-- Where RAM does not answer, neither does the overlay. -/
theorem Holds.hitRecord_eq {st : CacheState} {recs : List CacheSlot} (h : Holds st.ram recs)
    (hkeys : (recs.map CacheSlot.key).Nodup)
    (hdisk : diskRecords st.disk = recs.map CacheSlot.terminate) (role prompt : CString) :
    hitRecord st role prompt = (Cache.ramExact (cacheFnv1a role prompt) st.ram).or
      (Cache.ramSemantic role (cacheSig prompt) st.ram) := by
  rw [hitRecord, ← Option.or_assoc, h.disk_choice hkeys hdisk role prompt]
  cases (Cache.ramExact (cacheFnv1a role prompt) st.ram).or
    (Cache.ramSemantic role (cacheSig prompt) st.ram) <;> rfl

theorem Holds.mem {t : RamTable} {recs : List CacheSlot} (h : Holds t recs) {rec : CacheSlot}
    (hrec : rec ∈ t.toList) (hne : rec.key ≠ 0) : rec ∈ recs := by
  obtain ⟨free, ht, hfree⟩ := h.slots
  rw [ht, List.mem_append] at hrec
  exact hrec.resolve_right fun hmem => hne (hfree rec hmem)

/-- A stored value fits its field, so the scan's terminator is behind it. -/
theorem MadeFrom.valStr_terminate {rec : CacheSlot} {e : Entry} (h : MadeFrom rec e) :
    rec.terminate.valStr = rec.valStr := h.terminate.val.trans h.val.symm

/-- From an empty cache, stores of at most 64 distinct keys: a lookup hits exactly if RAM answers,
the overlay has the same choice, and once RAM is cleared and the overlay answers, the lookup returns
the same. -/
theorem ram_and_disk_agree {ram : RamTable} {stores : List Store}
    (hempty : ∀ s ∈ ram.toList, s.key = 0) (hlen : stores.length ≤ 64)
    (hkeys : (stores.map Store.key).Nodup) (happended : AllAppended ⟨ram, some []⟩ stores)
    (role prompt : CString) (out : List UInt8) (outmax : Int) :
    let st := stores.foldl Store.run ⟨ram, some []⟩
    ((cacheGet st role prompt out outmax).hit = true ↔ ¬ RamMiss role prompt st.ram) ∧
      cacheDiskScan role (cacheFnv1a role prompt) (cacheSig prompt) st.disk =
        ((ramExact (cacheFnv1a role prompt) st.ram).or
          (ramSemantic role (cacheSig prompt) st.ram)).map CacheSlot.terminate ∧
      RamMiss role prompt (cacheClear 0 st).ram ∧
      (cacheGet (cacheClear 0 st) role prompt out outmax).hit =
        (cacheGet st role prompt out outmax).hit ∧
      (cacheGet (cacheClear 0 st) role prompt out outmax).out =
        (cacheGet st role prompt out outmax).out := by
  intro st
  have hstart : Holds (⟨ram, some []⟩ : CacheState).ram [] := .of_zero hempty
  obtain ⟨hstored, hholds⟩ := hstart.stores (by simpa using hlen) (by simpa using hkeys) happended
  rw [List.nil_append] at hholds
  have hdisk : diskRecords st.disk = (stores.map Store.record).map CacheSlot.terminate := by
    have haligned : ∀ file, (⟨ram, some []⟩ : CacheState).disk = some file → 344 ∣ file.length := by
      rintro file ⟨⟩
      exact Nat.dvd_zero _
    rw [hstored.diskRecords haligned, List.map_map]
    rfl
  have hrecs : ((stores.map Store.record).map CacheSlot.key).Nodup := by
    rw [List.map_map]
    exact hkeys
  have hchoice := hholds.disk_choice hrecs hdisk role prompt
  have hfirst := hholds.hitRecord_eq hrecs hdisk role prompt
  have hhit : (cacheGet st role prompt out outmax).hit = true ↔ ¬ RamMiss role prompt st.ram := by
    rw [cacheGet_eq, hfirst, RamMiss, ← Option.or_eq_none_iff, Option.isSome_iff_ne_none]
  refine ⟨hhit, hchoice, ramMiss_cacheClear st role prompt, ?_⟩
  -- the second lookup hits the same record, with a terminator behind its value
  have hcleared : hitRecord (cacheClear 0 st) role prompt =
      (hitRecord st role prompt).map CacheSlot.terminate := by
    rw [hitRecord_cacheClear, hfirst, hchoice]
  have hvalue : ∀ rec, hitRecord st role prompt = some rec →
      rec.terminate.valStr = rec.valStr := by
    intro rec hrec
    rcases mem_of_hitRecord hrec with ⟨hram, hne⟩ | ⟨-, hmem⟩
    · obtain ⟨x, -, rfl⟩ := List.mem_map.mp (hholds.mem hram hne)
      exact (newSlot_madeFrom x.junk x.role x.prompt x.val).valStr_terminate
    · rw [hdisk, List.map_map] at hmem
      obtain ⟨x, -, rfl⟩ := List.mem_map.mp hmem
      exact (newSlot_madeFrom x.junk x.role x.prompt x.val).terminate.valStr_terminate
  rw [cacheGet_eq, cacheGet_eq, hcleared]
  cases hrec : hitRecord st role prompt with
  | none => exact ⟨rfl, rfl⟩
  | some rec => exact ⟨rfl, copyValue_congr (hvalue rec hrec) out outmax⟩

/-- Two prompts with the same words: the entries tie, and the first one stored is chosen. -/
def tiedStores : List Store :=
  [⟨fun _ => true, .zero, .lit "p", .lit "list files", .lit "A"⟩,
    ⟨fun _ => true, .zero, .lit "p", .lit "files list", .lit "B"⟩]

theorem tiedStores_agree :
    let st := tiedStores.foldl Store.run .empty
    ¬ RamMiss (.lit "p") (.lit "list the files") st.ram ∧
      (cacheGet st (.lit "p") (.lit "list the files") (.replicate 3 7) 3).out = [65, 0, 0] ∧
      (cacheGet (cacheClear 0 st) (.lit "p") (.lit "list the files") (.replicate 3 7) 3).out =
        [65, 0, 0] := by
  have hram : (cacheGet (tiedStores.foldl Store.run .empty) (.lit "p") (.lit "list the files")
      (.replicate 3 7) 3).hit = true ∧ (cacheGet (tiedStores.foldl Store.run .empty) (.lit "p")
        (.lit "list the files") (.replicate 3 7) 3).out = [65, 0, 0] := by
    decide +kernel
  have hempty : ∀ s ∈ CacheState.empty.ram.toList, s.key = 0 := keys_replicate_zero
  have hkeys : (tiedStores.map Store.key).Nodup := by decide +kernel
  obtain ⟨hhit, -, -, -, hout⟩ := ram_and_disk_agree hempty (by decide) hkeys (by decide +kernel)
    (.lit "p") (.lit "list the files") (.replicate 3 7) 3
  exact ⟨hhit.mp hram.1, hram.2, hout.trans hram.2⟩

/-! ## Asking again -/

/-- A slot that holds the record already is the one it is put into. -/
theorem ramPut_assign {t : RamTable} {rec : CacheSlot} {i : Nat} (hi : i < t.toList.length)
    (hbefore : ∀ j s, j < i → t.toList[j]? = some s → s.key ≠ rec.key) :
    ramPut rec (t.assign i rec) = t.assign i rec := by
  have hfind : (t.assign i rec).toList.findIdx? (fun s => s.key == rec.key) = some i := by
    rw [List.findIdx?_eq_some_iff_getElem]
    refine ⟨by simpa [RamTable.assign] using hi, by simp [RamTable.assign], fun j hj => ?_⟩
    have hne := hbefore j _ hj (List.getElem?_eq_getElem (by omega))
    simpa [RamTable.assign, List.getElem_set_ne (by omega : i ≠ j)] using hne
  rw [ramPut, hfind]
  exact List.Vector.eq _ _ (by simp [RamTable.assign])

/-- Putting a record twice is putting it once. -/
theorem ramPut_ramPut (rec : CacheSlot) (t : RamTable) :
    ramPut rec (ramPut rec t) = ramPut rec t := by
  cases hkey : t.toList.findIdx? (fun s => s.key == rec.key) with
  | some i =>
    have hput : ramPut rec t = t.assign i rec := by rw [ramPut, hkey]
    obtain ⟨hi, -, hfirst⟩ := List.findIdx?_eq_some_iff_getElem.mp hkey
    rw [hput]
    refine ramPut_assign hi fun j s hj hs => ?_
    obtain ⟨_, rfl⟩ := List.getElem?_eq_some_iff.mp hs
    simpa using hfirst j hj
  | none =>
    have hno : ∀ s ∈ t.toList, s.key ≠ rec.key := by simpa using hkey
    cases hzero : t.toList.findIdx? (fun s => s.key == 0) with
    | some i =>
      have hput : ramPut rec t = t.assign i rec := by rw [ramPut, hkey, hzero]
      obtain ⟨hi, -, -⟩ := List.findIdx?_eq_some_iff_getElem.mp hzero
      rw [hput]
      exact ramPut_assign hi fun j s _ hs => hno s (List.mem_of_getElem? hs)
    | none =>
      have hput : ramPut rec t = t := by rw [ramPut, hkey, hzero]
      rw [hput, hput]

/-- A record that is hit answers the query. -/
theorem answers_of_hitRecord {st : CacheState} {role prompt : CString} {rec : CacheSlot}
    (h : hitRecord st role prompt = some rec) : rec.Answers role prompt := by
  rw [hitRecord, cacheDiskScan_eq, ramSemantic_eq] at h
  simp only [Option.or_eq_some_iff] at h
  rcases h with h | ⟨-, h | ⟨-, h | ⟨-, h⟩⟩⟩
  · exact Or.inl (mem_of_ramExact h).2
  · exact Or.inr (mem_of_semanticMatch h).2.2
  · exact Or.inl (mem_of_lastFor h).2
  · exact Or.inr (mem_of_semanticMatch h).2.2

/-- A record promoted after a miss in RAM is hit again. A planted record with key 0 stays invisible
in RAM and is found on disk once more. -/
theorem hitRecord_promoted {st : CacheState} {role prompt : CString} {promo : CacheSlot}
    (hmiss : RamMiss role prompt st.ram)
    (hscan : cacheDiskScan role (cacheFnv1a role prompt) (cacheSig prompt) st.disk = some promo) :
    hitRecord { st with ram := ramPut promo st.ram } role prompt = some promo := by
  cases hhit : hitRecord { st with ram := ramPut promo st.ram } role prompt with
  | none => simp [hitRecord, hscan] at hhit
  | some rec =>
    rcases mem_of_hitRecord hhit with ⟨hmem, hne⟩ | ⟨hagain, -⟩
    · rcases mem_ramPut hmem with rfl | hold
      · rfl
      · exact absurd (answers_of_hitRecord hhit) (ramMiss_iff.mp hmiss rec hold hne)
    · rw [hitRecord, hagain.1, hagain.2, Option.none_or, Option.none_or] at hhit
      exact hhit.symm.trans hscan

/-- A lookup leaves a state in which it is answered alike and which it does not change. -/
theorem lookup_settles (st : CacheState) (role prompt : CString) :
    let after : CacheState := { st with ram := ramAfterGet st role prompt }
    hitRecord after role prompt = hitRecord st role prompt ∧
      ramAfterGet after role prompt = ramAfterGet st role prompt := by
  intro after
  by_cases hmiss : RamMiss role prompt st.ram
  · have hdisk : hitRecord st role prompt =
        cacheDiskScan role (cacheFnv1a role prompt) (cacheSig prompt) st.disk := by
      rw [hitRecord, hmiss.1, hmiss.2]
      rfl
    cases hscan : cacheDiskScan role (cacheFnv1a role prompt) (cacheSig prompt) st.disk with
    | none =>
      rw [hscan] at hdisk
      have hram : ramAfterGet st role prompt = st.ram := by simp [ramAfterGet, hdisk]
      have hsame : after = st := by simp only [after, hram]
      rw [hsame]
      exact ⟨rfl, rfl⟩
    | some promo =>
      rw [hscan] at hdisk
      have hram : ramAfterGet st role prompt = ramPut promo st.ram := by
        simp [ramAfterGet, hdisk, hmiss]
      have hagain : hitRecord after role prompt = some promo := by
        simp only [after, hram]
        exact hitRecord_promoted hmiss hscan
      refine ⟨hagain.trans hdisk.symm, ?_⟩
      have hafter : after.ram = ramPut promo st.ram := hram
      simp only [ramAfterGet, hagain, hafter, hdisk, if_pos hmiss, ramPut_ramPut, ite_self]
  · have hram : ramAfterGet st role prompt = st.ram := by
      simp only [ramAfterGet, if_neg hmiss]
      split <;> rfl
    have hsame : after = st := by simp only [after, hram]
    rw [hsame]
    exact ⟨rfl, rfl⟩

/-- A second lookup returns what the first one did, into the same buffer or a fresh one, and changes
nothing. No lookup changes the overlay, and a miss changes nothing at all. -/
theorem repeated_lookup (st : CacheState) (role prompt : CString) (out : List UInt8)
    (outmax : Int) :
    let first := cacheGet st role prompt out outmax
    cacheGet first.st role prompt out outmax = first ∧
      cacheGet first.st role prompt first.out outmax = first ∧ first.st.disk = st.disk ∧
      (first.hit = false → first.out = out ∧ first.st = st) := by
  intro first
  obtain ⟨hhit, hram⟩ := lookup_settles st role prompt
  have hfirst : first = _ := cacheGet_eq st role prompt out outmax
  have hfresh : cacheGet first.st role prompt out outmax = first := by
    rw [cacheGet_eq, hfirst]
    simp only [hhit, hram]
  refine ⟨hfresh, ?_, by rw [hfirst], fun hno => ?_⟩
  · rw [cacheGet_eq] at hfresh ⊢
    have hout : ((hitRecord first.st role prompt).map (copyValue first.out outmax)).getD first.out =
        ((hitRecord first.st role prompt).map (copyValue out outmax)).getD out := by
      have hfout : first.out = ((hitRecord first.st role prompt).map (copyValue out outmax)).getD
          out := (congrArg GetResult.out hfresh).symm
      cases hrec : hitRecord first.st role prompt with
      | none => simp [hfout, hrec]
      | some rec => simp [hfout, hrec, copyValue_idem]
    rw [hout]
    exact hfresh
  · have hnone : hitRecord st role prompt = none := by
      rw [hfirst] at hno
      simpa using hno
    rw [hfirst]
    simp [hnone, ramAfterGet]

end LiberalOS.Cache
