import LiberalOS.Cache.Runs

/-!
# What keeps a miss a miss

A lookup goes through all four tiers, so it misses exactly if no record in RAM or in the overlay
answers it. From then on only a `cache_set` can bring in an answer: a promotion copies a record
that was there, and clearing and rebooting only remove some.

## Main results

* `hitRecord_eq_none_iff` — a miss, by the records there are.
* `miss_step` — the operations that keep it.
-/
namespace LiberalOS.Cache
open Foundation Kernel

/-- The record answers the pair, exactly or as a paraphrase under its role. -/
def CacheSlot.Answers (rec : CacheSlot) (role prompt : CString) : Prop :=
  rec.key = cacheFnv1a role prompt ∨
    sameRole role rec = true ∧ sigOverThreshold (sigMatch (cacheSig prompt) rec.sig) = true

/-- An entry whose record would answer the pair. -/
def Entry.Matches (e : Entry) (role prompt : CString) : Prop :=
  e.key = cacheFnv1a role prompt ∨ e.role.bytes.take 15 = role.bytes.take 16 ∧
    sigOverThreshold (sigMatch (cacheSig prompt) (cacheSig e.prompt)) = true

instance (e : Entry) (role prompt : CString) : Decidable (e.Matches role prompt) :=
  inferInstanceAs (Decidable (_ ∨ _))

theorem MadeFrom.answers_iff {rec : CacheSlot} {e : Entry} (h : MadeFrom rec e)
    (role prompt : CString) : rec.Answers role prompt ↔ e.Matches role prompt := by
  rw [CacheSlot.Answers, Entry.Matches, h.key, h.sameRole_iff, h.sig]

variable {role prompt : CString}

theorem ramMiss_iff {t : RamTable} : RamMiss role prompt t ↔
    ∀ rec ∈ t.toList, rec.key ≠ 0 → ¬ rec.Answers role prompt := by
  have hk := cacheFnv1a_ne_zero role prompt
  rw [RamMiss, ramSemantic_eq, semanticMatch_eq_none_iff, ramExact_eq_none_iff]
  constructor
  · rintro ⟨hexact, hsem⟩ rec hrec hne (hkey | ⟨hrole, hover⟩)
    · exact hexact rec hrec hkey
    · simp [hsem rec hrec hne hrole] at hover
  · intro h
    refine ⟨fun rec hrec hkey => ?_, fun rec hrec hne hrole => ?_⟩
    · exact h rec hrec (hkey ▸ hk) (Or.inl hkey)
    · have hno := h rec hrec hne
      simp only [CacheSlot.Answers, hrole, true_and, not_or] at hno
      simpa using hno.2

theorem cacheDiskScan_eq_none_iff {disk : Option (List UInt8)} :
    cacheDiskScan role (cacheFnv1a role prompt) (cacheSig prompt) disk = none ↔
      ∀ rec ∈ diskRecords disk, ¬ rec.Answers role prompt := by
  rw [cacheDiskScan_eq, Option.or_eq_none_iff, lastFor_eq_none_iff, semanticMatch_eq_none_iff]
  constructor
  · rintro ⟨hexact, hsem⟩ rec hrec (hkey | ⟨hrole, hover⟩)
    · exact hexact rec hrec hkey
    · simp [hsem rec hrec (hexact rec hrec) hrole] at hover
  · intro h
    refine ⟨fun rec hrec hkey => h rec hrec (Or.inl hkey), fun rec hrec _ hrole => ?_⟩
    have hno := h rec hrec
    simp only [CacheSlot.Answers, hrole, true_and, not_or] at hno
    simpa using hno.2

/-- A lookup misses exactly if no record answers it. -/
theorem hitRecord_eq_none_iff {st : CacheState} : hitRecord st role prompt = none ↔
    (∀ rec ∈ st.ram.toList, rec.key ≠ 0 → ¬ rec.Answers role prompt) ∧
      ∀ rec ∈ diskRecords st.disk, ¬ rec.Answers role prompt := by
  rw [← ramMiss_iff, ← cacheDiskScan_eq_none_iff, hitRecord, Option.or_eq_none_iff,
    Option.or_eq_none_iff, RamMiss, and_assoc]

/-- A miss stays a miss under every operation but a store of a matching entry. -/
theorem miss_step {s : LogState} (hs : Provenance s) (h : hitRecord s.st role prompt = none)
    (op : CacheOp) (hop : ∀ bmap junk r p v, op = .set bmap junk r p v →
      freeOrMatch (cacheFnv1a r p) s.st.ram = true → ¬ Entry.Matches ⟨r, p, v⟩ role prompt) :
    hitRecord (cacheStep s op).st role prompt = none := by
  obtain ⟨hram, hdisk⟩ := hitRecord_eq_none_iff.mp h
  cases op with
  | set bmap junk r p v =>
    rcases cacheStep_set_cases s bmap junk r p v with hsame | ⟨hfree, heq⟩
    · rwa [hsame]
    have hno := hop bmap junk r p v rfl hfree
    have hnew : MadeFrom (newSlot junk r p v) ⟨r, p, v⟩ := newSlot_madeFrom junk r p v
    rw [heq]
    refine hitRecord_eq_none_iff.mpr ⟨fun rec hrec hne => ?_, fun rec hrec => ?_⟩
    · rcases mem_ramPut hrec with rfl | hrec
      · exact mt (hnew.answers_iff role prompt).mp hno
      · exact hram rec hrec hne
    · change rec ∈ diskRecords (cacheDiskAppend bmap (newSlot junk r p v) s.st.disk) at hrec
      rcases diskRecords_cacheDiskAppend hs.aligned bmap (newSlot junk r p v) with
        ⟨-, hrecs⟩ | ⟨-, hrecs⟩ <;> rw [hrecs] at hrec
      · rcases List.mem_append.mp hrec with hrec | hrec
        · exact hdisk rec hrec
        · obtain rfl := List.mem_singleton.mp hrec
          exact mt (hnew.terminate.answers_iff role prompt).mp hno
      · exact hdisk rec hrec
  | get r p out outmax =>
    simp only [cacheStep, cacheGet_eq]
    rcases ramAfterGet_cases s.st r p with heq | ⟨promo, -, hpromo, heq⟩ <;> rw [heq]
    · exact h
    · refine hitRecord_eq_none_iff.mpr ⟨fun rec hrec hne => ?_, hdisk⟩
      rcases mem_ramPut hrec with rfl | hrec
      · exact hdisk rec hpromo
      · exact hram rec hrec hne
  | clear disk =>
    refine hitRecord_eq_none_iff.mpr ⟨fun rec hrec hne => absurd (keys_cacheClear rec hrec) hne, ?_⟩
    intro rec hrec
    change rec ∈ diskRecords (cacheClear disk s.st).disk at hrec
    rw [diskRecords_cacheClear] at hrec
    split at hrec
    · simp at hrec
    · exact hdisk rec hrec
  | reboot =>
    exact hitRecord_eq_none_iff.mpr
      ⟨fun rec hrec hne => absurd (keys_replicate_zero rec hrec) hne, hdisk⟩

end LiberalOS.Cache
