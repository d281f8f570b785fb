import LiberalOS.Cache.SlotTable

/-!
# Reads of planted records

`cache_get` and `cache_disk_scan` of `kernel/cache.c` with every read of a record field checked
against the field: `role` has 16 bytes, `val` has 192, and behind them there is nothing. The store
of a NUL at the end of `val` when a record is read from the file is what keeps the checks from
failing, wherever the record goes from there.

## Main results

* `cacheGetIn_eq` — over terminated slots no check fails.
* `fieldBounds_plantedRun` — the slots are terminated, whatever is written to the file.
-/
namespace LiberalOS.Cache
open Foundation Kernel

/-! ## Checked lookups -/

/-- The role comparison, reading the field and the string. -/
def sameRoleIn (role : CString) (rec : CacheSlot) : Option Bool :=
  (strncmpIn rec.role.toList (role.bytes ++ [0]) cacheRolelen).map (· == 0)

/-- The bytes that a hit stores into `out`; an empty `out` stands for a null one. -/
def copyValueIn (out : List UInt8) (outmax : Int) (rec : CacheSlot) : Option (List UInt8) :=
  if out ≠ [] ∧ outmax > 0 then copiedBytes rec.val.toList outmax else some []

def ramSemanticStep (role : CString) (qsig : Sig) (b : Best CacheSlot) (s : CacheSlot) :
    Option (Best CacheSlot) :=
  if s.key = 0 then some b
  else (sameRoleIn role s).map fun same =>
    if same then b.offer (fun r => sigMatch qsig r.sig) s else b

def ramSemanticIn (role : CString) (qsig : Sig) (t : RamTable) : Option (Option CacheSlot) :=
  (t.toList.foldlM (ramSemanticStep role qsig) Best.init).map fun best =>
    best.item.filter fun _ => sigOverThreshold best.score

def scanStepIn (role : CString) (key : UInt64) (qsig : Sig) (s : ScanState) (rec : CacheSlot) :
    Option ScanState :=
  if rec.key = key then some { s with exact := some rec }
  else (sameRoleIn role rec).map fun same =>
    if same then { s with sem := s.sem.offer (fun r => sigMatch qsig r.sig) rec } else s

def cacheDiskScanIn (role : CString) (key : UInt64) (qsig : Sig) (disk : Option (List UInt8)) :
    Option (Option CacheSlot) :=
  ((diskRecords disk).foldlM (scanStepIn role key qsig) ⟨none, .init⟩).map fun s =>
    s.exact.or (s.sem.item.filter fun _ => sigOverThreshold s.sem.score)

/-- The outcome of a lookup whose reads are all inside their arrays. -/
structure GetStores where
  hit : Bool
  stores : List UInt8
  st : CacheState

/-- `cache_get` -/
def cacheGetIn (st : CacheState) (role prompt : CString) (out : List UInt8) (outmax : Int) :
    Option GetStores :=
  let k := cacheFnv1a role prompt
  let qsig := cacheSig prompt
  match ramExact k st.ram with
  | some s => (copyValueIn out outmax s).map fun stores => ⟨true, stores, st⟩
  | none =>
    (ramSemanticIn role qsig st.ram).bind fun
      | some s => (copyValueIn out outmax s).map fun stores => ⟨true, stores, st⟩
      | none =>
        (cacheDiskScanIn role k qsig st.disk).bind fun
          | some promo => (copyValueIn out outmax promo).map fun stores =>
            ⟨true, stores, { st with ram := ramPut promo st.ram }⟩
          | none => some ⟨false, [], st⟩

/-! ## The checks -/

theorem sameRoleIn_eq (role : CString) (rec : CacheSlot) :
    sameRoleIn role rec = some (sameRole role rec) := by
  rw [sameRoleIn, strncmpIn_eq (by simp)]
  rfl

theorem ramSemanticIn_eq (role : CString) (qsig : Sig) (t : RamTable) :
    ramSemanticIn role qsig t = some (ramSemantic role qsig t) := by
  have hstep : ramSemanticStep role qsig = fun b s => pure (if s.key == 0 then b
      else if strncmp s.role.toList role.bytes cacheRolelen ≠ 0 then b
      else b.offer (fun r => sigMatch qsig r.sig) s) := by
    funext b s
    rw [ramSemanticStep, sameRoleIn_eq, sameRole]
    by_cases hkey : s.key = 0 <;>
      by_cases hrole : strncmp s.role.toList role.bytes cacheRolelen = 0 <;>
      simp [hkey, hrole]
  rw [ramSemanticIn, hstep, List.foldlM_pure, ramSemantic]
  simp only [Option.pure_def, Option.map_some]
  split <;> simp only [*] <;> rfl

theorem cacheDiskScanIn_eq (role : CString) (key : UInt64) (qsig : Sig)
    (disk : Option (List UInt8)) :
    cacheDiskScanIn role key qsig disk = some (cacheDiskScan role key qsig disk) := by
  have hstep : scanStepIn role key qsig = fun s rec => pure (scanStep role key qsig s rec) := by
    funext s rec
    rw [scanStepIn, sameRoleIn_eq, scanStep]
    split <;> rfl
  rw [cacheDiskScanIn, hstep, List.foldlM_pure, cacheDiskScan]
  simp only [Option.pure_def, Option.map_some]
  generalize (diskRecords disk).foldl (scanStep role key qsig) ⟨none, .init⟩ = s
  cases s.exact with
  | some rec => rfl
  | none => cases s.sem.item <;> rfl

/-- A lookup reads strings of the record it hits only. -/
theorem cacheGetIn_eq (st : CacheState) (role prompt : CString) (out : List UInt8) (outmax : Int) :
    cacheGetIn st role prompt out outmax =
      (hitRecord st role prompt).elim (some ⟨false, [], st⟩) fun rec =>
        (copyValueIn out outmax rec).map fun stores =>
          ⟨true, stores, { st with ram := ramAfterGet st role prompt }⟩ := by
  cases he : ramExact (cacheFnv1a role prompt) st.ram with
  | some s => simp [cacheGetIn, ramAfterGet, hitRecord, RamMiss, he]
  | none =>
    cases hs : ramSemantic role (cacheSig prompt) st.ram with
    | some s => simp [cacheGetIn, ramAfterGet, hitRecord, RamMiss, he, hs, ramSemanticIn_eq]
    | none =>
      cases hd : cacheDiskScan role (cacheFnv1a role prompt) (cacheSig prompt) st.disk <;>
        simp [cacheGetIn, ramAfterGet, hitRecord, RamMiss, he, hs, hd, ramSemanticIn_eq,
          cacheDiskScanIn_eq]

/-! ## Terminated values -/

/-- There is a NUL in the value field. -/
def CacheSlot.Terminated (s : CacheSlot) : Prop := 0 ∈ s.val.toList

theorem terminated_zero : CacheSlot.zero.Terminated :=
  List.mem_replicate.mpr ⟨by decide, rfl⟩

theorem terminated_terminate (rec : CacheSlot) : rec.terminate.Terminated := by
  rw [CacheSlot.Terminated, CacheSlot.terminate, List.Vector.toList_set]
  exact List.mem_set (by simp) 0

theorem terminated_newSlot (junk : CacheSlot) (role prompt val : CString) :
    (newSlot junk role prompt val).Terminated := by
  have hstr := (newSlot_madeFrom junk role prompt val).val
  have hlen : (cstr (newSlot junk role prompt val).val.toList).length <
      (newSlot junk role prompt val).val.toList.length := by
    rw [← CacheSlot.valStr, hstr, Entry.value, List.length_take, List.Vector.toList_length]
    exact Nat.lt_of_le_of_lt (Nat.min_le_left _ _) (by decide)
  exact zero_mem_of_cstr_lt hlen

theorem terminated_diskRecords {disk : Option (List UInt8)} {rec : CacheSlot}
    (h : rec ∈ diskRecords disk) : rec.Terminated := by
  cases disk with
  | none => cases h
  | some file =>
    obtain ⟨raw, -, rfl⟩ := List.mem_map.mp h
    exact terminated_terminate raw

/-- Every slot is terminated. -/
def TerminatedRam (t : RamTable) : Prop := ∀ s ∈ t.toList, s.Terminated

theorem TerminatedRam.ramPut {t : RamTable} (h : TerminatedRam t) {rec : CacheSlot}
    (hrec : rec.Terminated) : TerminatedRam (ramPut rec t) := by
  intro s hs
  obtain rfl | hs := mem_ramPut hs
  · exact hrec
  · exact h s hs

theorem TerminatedRam.replicate_zero : TerminatedRam (.replicate cacheNslot .zero) := by
  intro s hs
  obtain rfl : s = .zero := List.eq_of_mem_replicate (n := cacheNslot) hs
  exact terminated_zero

theorem TerminatedRam.change {st : CacheState} (h : TerminatedRam st.ram) {op : PlantedOp}
    {t : RamTable} (hchange : RamChange st op t) : TerminatedRam t := by
  cases hchange with
  | same => exact h
  | stored junk role prompt val => exact h.ramPut (terminated_newSlot junk role prompt val)
  | promoted rec hrec => exact h.ramPut (terminated_diskRecords hrec)
  | cleared =>
    intro s hs
    simp only [List.Vector.toList_map, List.mem_map] at hs
    obtain ⟨old, hold, rfl⟩ := hs
    exact h old hold
  | zeroed => exact .replicate_zero

theorem terminatedRam_plantedRun (disk : Option (List UInt8)) (ops : List PlantedOp) :
    TerminatedRam (plantedRun (.zeroed disk) ops).ram :=
  plantedRun_invariant (I := fun st => TerminatedRam st.ram)
    (fun _ => .replicate_zero) (fun st op h => h.change (plantedStep_ram st op)) ops

/-! ## Statement -/

/-- The stores of a hit: at most `outmax` bytes at the front of `out`, the last one a NUL. -/
structure TerminatedStores (stores out out' : List UInt8) (outmax : Int) : Prop where
  length_le : stores.length ≤ outmax
  getLast : stores.getLast? = some 0
  out_eq : outmax ≤ out.length → out' = stores ++ out.drop stores.length

/-- The slots are terminated, and a lookup reads inside the fields only, with the stores of a hit
ended by a NUL. -/
structure FieldBounds (st : CacheState) : Prop where
  terminated : ∀ s ∈ st.ram.toList, 0 ∈ s.val.toList
  lookup : ∀ (role prompt : CString) (out : List UInt8) (outmax : Int), ∃ r,
    cacheGetIn st role prompt out outmax = some r ∧
      r.hit = (cacheGet st role prompt out outmax).hit ∧
      r.st = (cacheGet st role prompt out outmax).st ∧
      (r.hit = true → out ≠ [] → 1 ≤ outmax →
        TerminatedStores r.stores out (cacheGet st role prompt out outmax).out outmax)

theorem terminated_of_hitRecord {st : CacheState} (h : TerminatedRam st.ram)
    {role prompt : CString} {rec : CacheSlot} (hhit : hitRecord st role prompt = some rec) :
    rec.Terminated := by
  rcases mem_of_hitRecord hhit with ⟨hmem, -⟩ | ⟨-, hmem⟩
  · exact h rec hmem
  · exact terminated_diskRecords hmem

/-- The value of a terminated record is copied without reading behind its field. -/
theorem copyValueIn_eq {rec : CacheSlot} (h : rec.Terminated) (out : List UInt8) (outmax : Int) :
    ∃ stores, copyValueIn out outmax rec = some stores ∧ (out ≠ [] → 1 ≤ outmax →
      TerminatedStores stores out (copyValue out outmax rec) outmax) := by
  unfold copyValueIn
  split
  · next hcopies =>
    obtain ⟨-, hpos⟩ := hcopies
    obtain ⟨text, hstores, hlen, hout⟩ := copiedBytes_eq h (n := outmax) (by omega)
    refine ⟨_, hstores, fun _ _ => ⟨hlen, by simp, fun hle => ?_⟩⟩
    rw [copyValue, if_pos hpos, hout out hle]
  · next hnone => exact ⟨[], rfl, fun hne hpos => absurd ⟨hne, by omega⟩ hnone⟩

/-- Whatever is in the file at any time. -/
theorem fieldBounds_plantedRun (disk : Option (List UInt8)) (ops : List PlantedOp) :
    FieldBounds (plantedRun (.zeroed disk) ops) := by
  have hram := terminatedRam_plantedRun disk ops
  generalize plantedRun (.zeroed disk) ops = st at hram
  refine ⟨hram, fun role prompt out outmax => ?_⟩
  rw [cacheGetIn_eq, cacheGet_eq]
  cases hhit : hitRecord st role prompt with
  | none =>
    refine ⟨_, rfl, rfl, ?_, fun h => absurd h Bool.false_ne_true⟩
    simp [ramAfterGet, hhit]
  | some rec =>
    obtain ⟨stores, hstores, hends⟩ :=
      copyValueIn_eq (terminated_of_hitRecord hram hhit) out outmax
    refine ⟨⟨true, stores, _⟩, ?_, rfl, rfl, fun _ => hends⟩
    rw [Option.elim_some, hstores]
    rfl

end LiberalOS.Cache
