import LiberalOS.Cache.Runs

/-!
# Which lookups return superseded values

The overlay keeps every version of a key. The exact tier of `cache_disk_scan` lets the last record
win, the semantic tier takes the first best one, and either result is promoted into RAM. A run whose
appends all succeed therefore returns current values throughout exactly as long as no lookup
settles for a semantic disk record that a later record of the same key has replaced.

## Main results

* `freshGet_iff_bestNotReplaced` — that condition is exact, for every run.
-/
namespace LiberalOS.Cache
open Foundation Kernel

/-! ## Statement -/

/-- A `cache_set` that is stored is also appended. -/
def AppendsOk (s : LogState) : CacheOp → LogState → Prop
  | .set bmap junk role prompt val, _ =>
    freeOrMatch (cacheFnv1a role prompt) s.st.ram = true →
      AppendOk bmap (newSlot junk role prompt val) s.st.disk
  | _, _ => True

/-- A hit answers with the value of the most recent successful `cache_set` for the key of the
record that was hit. -/
def FreshGet (s : LogState) : CacheOp → LogState → Prop
  | .get role prompt out outmax, _ =>
    ∀ rec ∈ hitRecord s.st role prompt, ∃ e ∈ lastFor Entry.key rec.key s.log,
      rec.valStr = e.value ∧ (1 ≤ outmax → outmax ≤ out.length →
        cstr (cacheGet s.st role prompt out outmax).out = e.value.take (outmax.toNat - 1))
  | _, _ => True

instance : ∀ s op t, Decidable (AppendsOk s op t)
  | s, .set bmap junk role prompt val, _ =>
    inferInstanceAs (Decidable (freeOrMatch (cacheFnv1a role prompt) s.st.ram = true →
      AppendOk bmap (newSlot junk role prompt val) s.st.disk))
  | _, .get .., _ | _, .clear _, _ | _, .reboot, _ => isTrue trivial

instance : ∀ s op t, Decidable (FreshGet s op t)
  | s, .get role prompt out outmax, _ =>
    inferInstanceAs (Decidable (∀ rec ∈ hitRecord s.st role prompt,
      ∃ e ∈ lastFor Entry.key rec.key s.log, rec.valStr = e.value ∧ (1 ≤ outmax →
        outmax ≤ out.length →
        cstr (cacheGet s.st role prompt out outmax).out = e.value.take (outmax.toNat - 1))))
  | _, .set .., _ | _, .clear _, _ | _, .reboot, _ => isTrue trivial

/-- Among the records of the role with another key, `rec` agrees best with the signature of the
prompt, in at least 7 positions, and is the first to do so. -/
structure FirstBest (role prompt : CString) (recs : List CacheSlot) (rec : CacheSlot) : Prop where
  mem : rec ∈ semanticCandidates role (cacheFnv1a role prompt) recs
  similar : 7 ≤ sigMatch (cacheSig prompt) rec.sig
  best : ∀ r ∈ semanticCandidates role (cacheFnv1a role prompt) recs,
    sigMatch (cacheSig prompt) r.sig ≤ sigMatch (cacheSig prompt) rec.sig
  first : ∀ r ∈ semanticCandidates role (cacheFnv1a role prompt) recs,
    sigMatch (cacheSig prompt) rec.sig ≤ sigMatch (cacheSig prompt) r.sig →
      (semanticCandidates role (cacheFnv1a role prompt) recs).idxOf rec ≤
        (semanticCandidates role (cacheFnv1a role prompt) recs).idxOf r

/-- When a lookup misses RAM and the overlay has no record with its key, the last record with the
key of the first best one carries the same value. -/
def BestNotReplaced (s : LogState) : CacheOp → LogState → Prop
  | .get role prompt _ _, _ =>
    RamMiss role prompt s.st.ram →
      (∀ rec ∈ diskRecords s.st.disk, rec.key ≠ cacheFnv1a role prompt) →
        ∀ rec, FirstBest role prompt (diskRecords s.st.disk) rec →
          ∀ cur ∈ lastFor CacheSlot.key rec.key (diskRecords s.st.disk), cur.valStr = rec.valStr
  | _, _ => True

theorem semanticMatch_eq_some_iff {role prompt : CString} {recs : List CacheSlot}
    {rec : CacheSlot} :
    semanticMatch role (cacheFnv1a role prompt) (cacheSig prompt) recs = some rec ↔
      FirstBest role prompt recs rec := by
  rw [semanticMatch, Option.filter_eq_some_iff, List.argmax_eq_some_iff, sigOverThreshold_iff]
  constructor
  · rintro ⟨⟨hmem, hbest, hfirst⟩, hover⟩
    exact ⟨hmem, hover, hbest, hfirst⟩
  · rintro ⟨hmem, hover, hbest, hfirst⟩
    exact ⟨⟨hmem, hbest, hfirst⟩, hover⟩

/-! ## The invariant -/

/-- The record carries the value of the latest log entry of its key. -/
def Current (log : List Entry) (rec : CacheSlot) : Prop :=
  ∃ e ∈ lastFor Entry.key rec.key log, rec.valStr = e.value

/-- Occupied slots are current, and so is the last overlay record of each key. -/
structure AllCurrent (s : LogState) : Prop extends Provenance s where
  ramCurrent : ∀ rec ∈ s.st.ram.toList, rec.key ≠ 0 → Current s.log rec
  diskCurrent : ∀ k, ∀ rec ∈ lastFor CacheSlot.key k (diskRecords s.st.disk), Current s.log rec

theorem Current.append_other {log : List Entry} {rec : CacheSlot} (h : Current log rec)
    {e : Entry} (hne : e.key ≠ rec.key) : Current (log ++ [e]) rec := by
  rw [Current, lastFor_append_singleton, if_neg hne]
  exact h

theorem MadeFrom.current {log : List Entry} {rec : CacheSlot} {e : Entry} (h : MadeFrom rec e) :
    Current (log ++ [e]) rec := by
  rw [Current, lastFor_append_singleton, if_pos h.key.symm]
  exact ⟨e, rfl, h.val⟩

theorem AllCurrent.init : AllCurrent .init where
  toProvenance := .init
  ramCurrent := fun rec hrec hne => absurd (keys_replicate_zero rec hrec) hne
  diskCurrent := by simp [LogState.init, CacheState.empty, diskRecords]

theorem AllCurrent.of_zero {s : LogState} (hp : Provenance s)
    (hzero : ∀ rec ∈ s.st.ram.toList, rec.key = 0)
    (hdisk : ∀ k, ∀ rec ∈ lastFor CacheSlot.key k (diskRecords s.st.disk), Current s.log rec) :
    AllCurrent s :=
  ⟨hp, fun rec hrec hne => absurd (hzero rec hrec) hne, hdisk⟩

theorem AllCurrent.set {s : LogState} (h : AllCurrent s) {bmap : Nat → Bool} {junk : CacheSlot}
    {role prompt val : CString}
    (happend : AppendsOk s (.set bmap junk role prompt val)
      (cacheStep s (.set bmap junk role prompt val))) :
    AllCurrent (cacheStep s (.set bmap junk role prompt val)) := by
  have hprov := h.toProvenance.set bmap junk role prompt val
  rcases cacheStep_set_cases s bmap junk role prompt val with hsame | ⟨hstored, heq⟩
  · rwa [hsame]
  let rec' := newSlot junk role prompt val
  have hnew : MadeFrom rec' ⟨role, prompt, val⟩ := newSlot_madeFrom junk role prompt val
  have hrecs : diskRecords (cacheDiskAppend bmap rec' s.st.disk) =
      diskRecords s.st.disk ++ [rec'.terminate] := by
    rcases diskRecords_cacheDiskAppend h.aligned bmap rec' with ⟨-, hr⟩ | ⟨hno, -⟩
    · exact hr
    · exact absurd (happend hstored) hno
  rw [heq] at hprov ⊢
  refine ⟨hprov, ?_, ?_⟩
  · intro r hr hne
    by_cases hkey : r.key = rec'.key
    · rw [eq_of_mem_ramPut h.distinct hnew.key_ne_zero hr hkey]
      exact hnew.current
    · have hold : r ∈ s.st.ram.toList :=
        (mem_ramPut hr).resolve_left fun heq => hkey (heq ▸ rfl)
      exact (h.ramCurrent r hold hne).append_other fun hk => hkey (hk.symm.trans hnew.key.symm)
  · intro k r hr
    change r ∈ lastFor CacheSlot.key k (diskRecords (cacheDiskAppend bmap rec' s.st.disk)) at hr
    rw [hrecs, lastFor_append_singleton] at hr
    split at hr
    · obtain rfl := Option.some.inj hr
      exact hnew.terminate.current
    · next hk =>
      refine (h.diskCurrent k r hr).append_other fun hkey => hk ?_
      exact hnew.terminate.key.trans (hkey.trans (mem_of_lastFor hr).2)

/-- In a state whose records are current, a hit is current exactly when it does not come from a
replaced semantic disk record. -/
theorem current_hit_iff {s : LogState} (h : AllCurrent s) (role prompt : CString)
    (out : List UInt8) (outmax : Int) (t : LogState) :
    (∀ rec ∈ hitRecord s.st role prompt, Current s.log rec) ↔
      BestNotReplaced s (.get role prompt out outmax) t := by
  constructor
  · intro hcur hmiss hno rec hbest cur hlast
    have hnone : lastFor CacheSlot.key (cacheFnv1a role prompt) (diskRecords s.st.disk) = none :=
      lastFor_eq_none_iff.mpr hno
    have hhit : hitRecord s.st role prompt = some rec := by
      rw [hitRecord, hmiss.1, hmiss.2, cacheDiskScan_eq, hnone, semanticMatch_eq_some_iff.mpr hbest]
      rfl
    obtain ⟨e, he, hval⟩ := hcur rec hhit
    obtain ⟨e', he', hval'⟩ := h.diskCurrent rec.key cur hlast
    rw [(mem_of_lastFor hlast).2] at he'
    rw [hval, hval', Option.mem_unique he' he]
  · intro hcond rec hrec
    rw [Option.mem_def, hitRecord, Option.or_eq_some_iff, Option.or_eq_some_iff] at hrec
    rcases hrec with hexact | ⟨hno, hsem | ⟨hno', hdisk⟩⟩
    · obtain ⟨hmem, hkey⟩ := mem_of_ramExact hexact
      exact h.ramCurrent rec hmem (hkey ▸ cacheFnv1a_ne_zero role prompt)
    · rw [ramSemantic_eq] at hsem
      obtain ⟨hmem, hkey, -⟩ := mem_of_semanticMatch hsem
      exact h.ramCurrent rec hmem hkey
    · rw [cacheDiskScan_eq, Option.or_eq_some_iff] at hdisk
      rcases hdisk with hlast | ⟨hnone, hbest⟩
      · exact h.diskCurrent _ rec hlast
      · obtain ⟨cur, hcur⟩ := exists_lastFor CacheSlot.key (mem_of_semanticMatch hbest).1
        have hval := hcond ⟨hno, hno'⟩ (lastFor_eq_none_iff.mp hnone) rec
          (semanticMatch_eq_some_iff.mp hbest) cur hcur
        obtain ⟨e, he, hev⟩ := h.diskCurrent rec.key cur hcur
        rw [(mem_of_lastFor hcur).2] at he
        exact ⟨e, he, hval.symm.trans hev⟩

/-- The two readings of a current answer: by the record hit and by the bytes delivered. -/
theorem freshGet_iff_current {s t : LogState} {role prompt : CString} {out : List UInt8}
    {outmax : Int} :
    FreshGet s (.get role prompt out outmax) t ↔
      ∀ rec ∈ hitRecord s.st role prompt, Current s.log rec := by
  constructor
  · intro h rec hrec
    obtain ⟨e, he, hval, -⟩ := h rec hrec
    exact ⟨e, he, hval⟩
  · intro h rec hrec
    obtain ⟨e, he, hval⟩ := h rec hrec
    refine ⟨e, he, hval, fun h1 h2 => ?_⟩
    rw [cacheGet_eq, Option.mem_def.mp hrec, ← hval]
    exact cstr_copyValue h1 h2 rec

theorem AllCurrent.get {s : LogState} (h : AllCurrent s) {role prompt : CString}
    {out : List UInt8} {outmax : Int}
    (hcur : ∀ rec ∈ hitRecord s.st role prompt, Current s.log rec) :
    AllCurrent (cacheStep s (.get role prompt out outmax)) := by
  have hprov := h.toProvenance.get role prompt out outmax
  simp only [cacheStep, cacheGet_eq] at hprov ⊢
  refine ⟨hprov, ?_, h.diskCurrent⟩
  intro r hr hne
  rcases ramAfterGet_cases s.st role prompt with heq | ⟨rec, hhit, -, heq⟩
  · exact h.ramCurrent r (heq ▸ hr) hne
  · rcases mem_ramPut (heq ▸ hr) with rfl | hold
    · exact hcur r hhit
    · exact h.ramCurrent r hold hne

theorem AllCurrent.clear {s : LogState} (h : AllCurrent s) (disk : Int) :
    AllCurrent (cacheStep s (.clear disk)) := by
  refine .of_zero (h.toProvenance.clear disk) keys_cacheClear ?_
  intro k rec hrec
  change rec ∈ lastFor CacheSlot.key k (diskRecords (cacheClear disk s.st).disk) at hrec
  rw [diskRecords_cacheClear] at hrec
  split at hrec
  · simp at hrec
  · exact h.diskCurrent k rec hrec

/-! ## Runs -/

/-- In a run whose appends all succeed, every hit is current exactly if no lookup settles for a
replaced semantic disk record. -/
theorem freshGet_iff_bestNotReplaced (ops : List CacheOp)
    (happends : Along cacheNext AppendsOk .init ops) :
    Along cacheNext FreshGet .init ops ↔ Along cacheNext BestNotReplaced .init ops := by
  refine along_iff_of_invariant AllCurrent ?_ ?_ .init happends
  · intro s op t hs _ _
    cases op with
    | get role prompt out outmax => exact freshGet_iff_current.trans (current_hit_iff hs _ _ _ _ t)
    | _ => exact Iff.rfl
  · intro s op t hs hstep hok hcond
    obtain rfl := Option.some.inj hstep
    cases op with
    | set bmap junk role prompt val => exact hs.set hok
    | get role prompt out outmax =>
      exact hs.get ((current_hit_iff hs role prompt out outmax _).mpr hcond)
    | clear disk => exact hs.clear disk
    | reboot => exact .of_zero (hs.toProvenance.step .reboot) keys_replicate_zero hs.diskCurrent

/-- Two versions of a prompt, a paraphrase that promotes the older one, and the prompt again. -/
def overwriteThenParaphrase : List CacheOp :=
  let p := CString.lit "p"
  let buf := List.replicate 192 (0 : UInt8)
  [.set (fun _ => true) .zero p (.lit "list files") (.lit "A"),
    .set (fun _ => true) .zero p (.lit "list files") (.lit "B"),
    .clear 0,
    .get p (.lit "files list") buf 192,
    .get p (.lit "list files") buf 192]

theorem overwriteThenParaphrase_freshGet_iff :
    Along cacheNext FreshGet .init overwriteThenParaphrase ↔
      Along cacheNext BestNotReplaced .init overwriteThenParaphrase :=
  freshGet_iff_bestNotReplaced _ (by decide +kernel)

/-- The overwritten value comes back, although all appends succeed and no keys collide. -/
theorem superseded_value_returned :
    ¬ ∀ ops : List CacheOp, NoCollision (ops.filterMap CacheOp.pair) →
      Along cacheNext AppendsOk .init ops → Along cacheNext FreshGet .init ops := by
  intro h
  exact absurd (h overwriteThenParaphrase (by decide +kernel) (by decide +kernel))
    (by decide +kernel)

end LiberalOS.Cache
