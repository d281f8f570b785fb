import LiberalOS.Cache.Overlay

/-!
# Lookup, insertion and clearing

The RAM slot table of `kernel/cache.c` and its public operations. Each operation runs to completion
here; the critical sections it is made of are those of the source, in the same order.

## Main definitions

* `ramPut`, `cacheGet`, `cacheSet`, `cacheClear` — the operations.
* `hitRecord` — the record a lookup answers with, through all four tiers.
-/
namespace LiberalOS.Cache
open Foundation Kernel

abbrev RamTable := List.Vector CacheSlot cacheNslot

structure CacheState where
  ram : RamTable
  disk : Option (List UInt8)
  deriving DecidableEq

/-- A zeroed slot, as in the BSS. -/
def CacheSlot.zero : CacheSlot := ⟨0, .replicate _ 0, .replicate _ 0, .replicate _ 0⟩

/-- Boot state with an empty `/cache.bin`. -/
def CacheState.empty : CacheState := ⟨.replicate _ .zero, some []⟩

/-! ## RAM helpers -/

/-- The assignment `cache.slot[i] = *rec`. -/
def RamTable.assign (t : RamTable) (i : Nat) (rec : CacheSlot) : RamTable :=
  ⟨t.toList.set i rec, by simp⟩

/-- Insert or overwrite a record: the first slot with its key, else the first empty one. -/
def ramPut (rec : CacheSlot) (t : RamTable) : RamTable :=
  match t.toList.findIdx? (fun s => s.key == rec.key) with
  | some i => t.assign i rec
  | none =>
    match t.toList.findIdx? (fun s => s.key == 0) with
    | some i => t.assign i rec
    | none => t

/-- The exact loop over the RAM table. -/
def ramExact (k : UInt64) (t : RamTable) : Option CacheSlot := t.toList.find? fun s => s.key == k

/-- The semantic loop over the RAM table and the threshold test behind it. -/
def ramSemantic (role : CString) (qsig : Sig) (t : RamTable) : Option CacheSlot :=
  let best := t.toList.foldl (fun b s =>
    if s.key == 0 then b
    else if strncmp s.role.toList role.bytes cacheRolelen ≠ 0 then b
    else b.offer (fun r => sigMatch qsig r.sig) s) Best.init
  match best.item with
  | some s => if sigOverThreshold best.score then some s else none
  | none => none

/-! ## Public operations -/

/-- The guarded `safestrcpy` of a hit. An empty list stands for a null `out`. -/
def copyValue (out : List UInt8) (outmax : Int) (rec : CacheSlot) : List UInt8 :=
  if outmax > 0 then safestrcpy out rec.val.toList outmax else out

structure GetResult where
  hit : Bool
  out : List UInt8
  st : CacheState
  deriving DecidableEq

/-- Look up RAM exactly, RAM semantically, then the overlay, promoting a disk hit into RAM. -/
def cacheGet (st : CacheState) (role prompt : CString) (out : List UInt8) (outmax : Int) :
    GetResult :=
  let k := cacheFnv1a role prompt
  let qsig := cacheSig prompt
  match ramExact k st.ram with
  | some s => ⟨true, copyValue out outmax s, st⟩
  | none =>
    match ramSemantic role qsig st.ram with
    | some s => ⟨true, copyValue out outmax s, st⟩
    | none =>
      match cacheDiskScan role k qsig st.disk with
      | some promo => ⟨true, copyValue out outmax promo, { st with ram := ramPut promo st.ram }⟩
      | none => ⟨false, out, st⟩

/-- The local `rec` of `cache_set`, built over whatever its stack slot `junk` held. -/
def newSlot (junk : CacheSlot) (role prompt val : CString) : CacheSlot where
  key := cacheFnv1a role prompt
  role := ⟨safestrcpy junk.role.toList role.bytes cacheRolelen, by simp⟩
  sig := cacheSig prompt
  val := ⟨safestrcpy junk.val.toList val.bytes cacheVallen, by simp⟩

/-- A slot with the key or an empty slot exists. -/
def freeOrMatch (k : UInt64) (t : RamTable) : Bool :=
  t.toList.any fun s => s.key == k || s.key == 0

/-- Store in RAM and append to the overlay; a full table stores nothing and reports 0. -/
def cacheSet (bmap : Nat → Bool) (junk : CacheSlot) (st : CacheState) (role prompt val : CString) :
    Bool × CacheState :=
  let rec' := newSlot junk role prompt val
  let stored := freeOrMatch rec'.key st.ram
  let ram := if stored then ramPut rec' st.ram else st.ram
  let disk := if stored then cacheDiskAppend bmap rec' st.disk else st.disk
  (stored, ⟨ram, disk⟩)

/-- Mark every slot empty; `disk ≠ 0` also truncates the overlay. -/
def cacheClear (disk : Int) (st : CacheState) : CacheState where
  ram := st.ram.map fun s => { s with key := 0 }
  disk := if disk ≠ 0 then cacheDiskTruncate st.disk else st.disk

/-! ## What a lookup answers with -/

/-- No slot answers the query from RAM. -/
def RamMiss (role prompt : CString) (t : RamTable) : Prop :=
  ramExact (cacheFnv1a role prompt) t = none ∧ ramSemantic role (cacheSig prompt) t = none

instance (role prompt : CString) (t : RamTable) : Decidable (RamMiss role prompt t) :=
  inferInstanceAs (Decidable (_ ∧ _))

/-- The record a lookup hits, tier by tier. -/
def hitRecord (st : CacheState) (role prompt : CString) : Option CacheSlot :=
  (ramExact (cacheFnv1a role prompt) st.ram).or ((ramSemantic role (cacheSig prompt) st.ram).or
    (cacheDiskScan role (cacheFnv1a role prompt) (cacheSig prompt) st.disk))

/-- The RAM table after a lookup: a record that came from disk is promoted. -/
def ramAfterGet (st : CacheState) (role prompt : CString) : RamTable :=
  match hitRecord st role prompt with
  | some rec => if RamMiss role prompt st.ram then ramPut rec st.ram else st.ram
  | none => st.ram

/-- A lookup is determined by the record it hits. -/
theorem cacheGet_eq (st : CacheState) (role prompt : CString) (out : List UInt8) (outmax : Int) :
    cacheGet st role prompt out outmax =
      ⟨(hitRecord st role prompt).isSome,
        ((hitRecord st role prompt).map (copyValue out outmax)).getD out,
        { st with ram := ramAfterGet st role prompt }⟩ := by
  cases he : ramExact (cacheFnv1a role prompt) st.ram with
  | some s => simp [cacheGet, ramAfterGet, hitRecord, RamMiss, he]
  | none =>
    cases hs : ramSemantic role (cacheSig prompt) st.ram with
    | some s => simp [cacheGet, ramAfterGet, hitRecord, RamMiss, he, hs]
    | none =>
      cases hd : cacheDiskScan role (cacheFnv1a role prompt) (cacheSig prompt) st.disk <;>
        simp [cacheGet, ramAfterGet, hitRecord, RamMiss, he, hs, hd]

/-- The output of a hit is the record's value cut to the caller's buffer. -/
theorem cstr_copyValue {out : List UInt8} {outmax : Int} (h1 : 1 ≤ outmax)
    (h2 : outmax ≤ out.length) (rec : CacheSlot) :
    cstr (copyValue out outmax rec) = rec.valStr.take (outmax.toNat - 1) := by
  have hpos : outmax > 0 := by omega
  rw [copyValue, if_pos hpos, cstr_safestrcpy h1 h2]
  rfl

/-- The RAM tier selects the first best match among the occupied slots of the role. -/
theorem ramSemantic_eq (role : CString) (qsig : Sig) (t : RamTable) :
    ramSemantic role qsig t =
      semanticMatch role 0 qsig t.toList := by
  have hfold : t.toList.foldl (fun b s => if s.key == 0 then b
      else if strncmp s.role.toList role.bytes cacheRolelen ≠ 0 then b
      else b.offer (fun r => sigMatch qsig r.sig) s) Best.init =
      bestOf (fun r => sigMatch qsig r.sig) (semanticCandidates role 0 t.toList) := by
    rw [semanticCandidates, ← foldl_offer_filter]
    congr 1
    funext b s
    by_cases h0 : s.key = 0 <;>
      by_cases hr : strncmp s.role.toList role.bytes cacheRolelen = 0 <;>
        simp_all [sameRole]
  simp only [ramSemantic, hfold, semanticMatch, bestOf_eq]
  cases (semanticCandidates role 0 t.toList).argmax fun r => sigMatch qsig r.sig with
  | none => rfl
  | some s =>
    by_cases h : sigOverThreshold (sigMatch qsig s.sig) <;>
      simp [Best.ofItem, Option.filter, h]

theorem ramExact_eq_none_iff (k : UInt64) (t : RamTable) :
    ramExact k t = none ↔ ∀ rec ∈ t.toList, rec.key ≠ k := by
  simp [ramExact]

theorem mem_of_ramExact {k : UInt64} {t : RamTable} {s : CacheSlot} (h : ramExact k t = some s) :
    s ∈ t.toList ∧ s.key = k :=
  ⟨List.mem_of_find?_eq_some h, by simpa using List.find?_some h⟩

theorem mem_of_semanticMatch {role : CString} {k : UInt64} {qsig : Sig} {recs : List CacheSlot}
    {rec : CacheSlot} (h : semanticMatch role k qsig recs = some rec) :
    rec ∈ recs ∧ rec.key ≠ k ∧ sameRole role rec = true ∧
      sigOverThreshold (sigMatch qsig rec.sig) = true := by
  obtain ⟨hmax, hover⟩ := Option.filter_eq_some_iff.mp h
  have hmem := List.argmax_mem hmax
  simp only [semanticCandidates, List.mem_filter, Bool.and_eq_true, decide_eq_true_eq] at hmem
  exact ⟨hmem.1, hmem.2.1, hmem.2.2, hover⟩

/-- Without a match over the threshold, every candidate is below it. -/
theorem semanticMatch_eq_none_iff {role : CString} {k : UInt64} {qsig : Sig}
    {recs : List CacheSlot} :
    semanticMatch role k qsig recs = none ↔ ∀ rec ∈ recs, rec.key ≠ k →
      sameRole role rec = true → sigOverThreshold (sigMatch qsig rec.sig) = false := by
  constructor
  · intro h rec hrec hk hr
    have hcand : rec ∈ semanticCandidates role k recs := by
      simp [semanticCandidates, hrec, hk, hr]
    cases hmax : (semanticCandidates role k recs).argmax fun r => sigMatch qsig r.sig with
    | none => simp [List.argmax_eq_none.mp hmax] at hcand
    | some best =>
      have hle : sigMatch qsig rec.sig ≤ sigMatch qsig best.sig :=
        List.le_of_mem_argmax (f := fun r : CacheSlot => sigMatch qsig r.sig) hcand hmax
      have hbest : ¬ sigOverThreshold (sigMatch qsig best.sig) = true := by
        intro hover
        simp [semanticMatch, hmax, Option.filter, hover] at h
      have hrec' : ¬ sigOverThreshold (sigMatch qsig rec.sig) = true := by
        rw [sigOverThreshold_iff] at hbest ⊢
        omega
      simpa using hrec'
  · intro h
    cases hm : semanticMatch role k qsig recs with
    | none => rfl
    | some rec =>
      obtain ⟨hrec, hk, hr, hover⟩ := mem_of_semanticMatch hm
      simp [h rec hrec hk hr] at hover

end LiberalOS.Cache
