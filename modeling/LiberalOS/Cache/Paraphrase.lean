import LiberalOS.Cache.ReadYourWrites
import LiberalOS.Cache.Words

/-!
# Which prompts answer each other

A stored prompt answers every prompt with the same content words, as long as RAM is not cleared. The
other way round, a record that answers a prompt under another key has a content word in common with
it, if the hashes are good. The exception is a prompt without content words: its signature is that
of the empty set, so all such prompts of a role answer each other.

## Main results

* `signature_of_words` — signatures are functions of the content words, and paraphrases hit.
* `hitsShareWord_iff` — when a hit under another key has a word in common with the query.
-/
namespace LiberalOS.Cache
open Foundation Kernel

/-! ## Paraphrases hit -/

theorem sigMatch_self (sig : Sig) : sigMatch sig sig = 16 := by
  simp [sigMatch]

/-- The operation leaves RAM occupied as it is. -/
def CacheOp.KeepsRam : CacheOp → Prop
  | .set .. | .get .. => True
  | .clear _ | .reboot => False

instance : ∀ op, Decidable (CacheOp.KeepsRam op)
  | .set .. | .get .. => isTrue trivial
  | .clear _ | .reboot => isFalse id

/-- RAM holds a record of the pair, whatever its value, and every stored pair is among `pairs`. -/
structure ResidentPair (pairs : List (CString × CString)) (pair : CString × CString)
    (s : LogState) : Prop extends Provenance s where
  logged : ∀ a ∈ s.log, a.pair ∈ pairs
  held : ∃ rec ∈ s.st.ram.toList, ∃ e : Entry, e.pair = pair ∧ MadeFrom rec e

theorem freeOrMatch_of_mem {rec : CacheSlot} {t : RamTable} {k : UInt64} (h : rec ∈ t.toList)
    (hk : rec.key = k) : freeOrMatch k t = true :=
  List.any_eq_true.mpr ⟨rec, h, by simp [hk]⟩

/-- A put of another record of the pair replaces the one that is held, any other put leaves it. -/
theorem ResidentPair.held_ramPut {pairs : List (CString × CString)} {pair : CString × CString}
    {s : LogState} (h : ResidentPair pairs pair s) (hcoll : NoCollision pairs)
    (hpair : pair ∈ pairs) {new : CacheSlot} {a : Entry} (ha : a.pair ∈ pairs)
    (hnew : MadeFrom new a) :
    ∃ rec ∈ (ramPut new s.st.ram).toList, ∃ e : Entry, e.pair = pair ∧ MadeFrom rec e := by
  obtain ⟨rec, hrec, e, rfl, hmade⟩ := h.held
  by_cases hkey : rec.key = new.key
  · have hsame : a.pair = e.pair :=
      hcoll _ ha _ hpair (hnew.key.symm.trans (hkey.symm.trans hmade.key))
    exact ⟨new, mem_ramPut_self (freeOrMatch_of_mem hrec hkey), a, hsame, hnew⟩
  · exact ⟨rec, mem_ramPut_of_ne hrec hmade.key_ne_zero hkey, e, rfl, hmade⟩

theorem ResidentPair.step {pairs : List (CString × CString)} {pair : CString × CString}
    {s : LogState} (h : ResidentPair pairs pair s) (hcoll : NoCollision pairs)
    (hpair : pair ∈ pairs) {op : CacheOp} (hop : ∀ a ∈ op.pair, a ∈ pairs) (hkeep : op.KeepsRam) :
    ResidentPair pairs pair (cacheStep s op) := by
  have hprov := h.toProvenance.step op
  cases op with
  | set bmap junk role prompt val =>
    rcases cacheStep_set_cases s bmap junk role prompt val with hsame | ⟨-, heq⟩
    · rwa [hsame]
    have hin : (role, prompt) ∈ pairs := hop _ rfl
    rw [heq] at hprov ⊢
    refine ⟨hprov, fun a ha => ?_, ?_⟩
    · rcases List.mem_append.mp ha with ha | ha
      · exact h.logged a ha
      · obtain rfl := List.mem_singleton.mp ha
        exact hin
    · exact h.held_ramPut hcoll hpair (a := ⟨role, prompt, val⟩) hin (newSlot_madeFrom ..)
  | get role prompt out outmax =>
    refine ⟨hprov, h.logged, ?_⟩
    simp only [cacheStep, cacheGet_eq]
    rcases ramAfterGet_cases s.st role prompt with heq | ⟨promo, -, hpromo, heq⟩ <;> rw [heq]
    · exact h.held
    · obtain ⟨a, ha, hmade⟩ := h.disk promo hpromo
      exact h.held_ramPut hcoll hpair (h.logged a ha) hmade
  | clear disk => exact hkeep.elim
  | reboot => exact hkeep.elim

/-- A resident record answers every prompt with the words of its own. -/
theorem ResidentPair.hit {pairs : List (CString × CString)} {role p q : CString} {s : LogState}
    (h : ResidentPair pairs (role, p) s) (hwords : contentWords p = contentWords q)
    (hrole : role.length < 16) (out : List UInt8) (outmax : Int) :
    (cacheGet s.st role q out outmax).hit = true := by
  obtain ⟨rec, hrec, e, hpair, hmade⟩ := h.held
  obtain ⟨rfl, rfl⟩ := Prod.mk.inj hpair
  have hlen : e.role.bytes.length ≤ 15 := Nat.le_of_lt_succ hrole
  have hanswers : rec.Answers e.role q := by
    refine Or.inr ⟨(hmade.sameRole_iff _).mpr ?_, ?_⟩
    · rw [List.take_of_length_le hlen, List.take_of_length_le (by omega)]
    · rw [hmade.sig, ← cacheSig_congr hwords, sigMatch_self]
      decide
  rw [cacheGet_eq]
  cases hhit : hitRecord s.st e.role q with
  | some found => rfl
  | none =>
    exact absurd hanswers ((hitRecord_eq_none_iff.mp hhit).1 rec hrec hmade.key_ne_zero)

/-- A store that returns 1 makes its pair resident. -/
theorem ResidentPair.of_stored {pairs : List (CString × CString)} {s : LogState}
    (hprov : Provenance s) (hlogged : ∀ a ∈ s.log, a.pair ∈ pairs) {bmap : Nat → Bool}
    {junk : CacheSlot} {role prompt val : CString} (hpair : (role, prompt) ∈ pairs)
    (hstored : (cacheSet bmap junk s.st role prompt val).1 = true) :
    ResidentPair pairs (role, prompt) (cacheStep s (.set bmap junk role prompt val)) := by
  have hset := hprov.set bmap junk role prompt val
  rcases cacheStep_set_cases s bmap junk role prompt val with hsame | ⟨hfree, heq⟩
  · have hlog := congrArg LogState.log hsame
    simp [cacheStep, hstored] at hlog
  rw [heq] at hset ⊢
  refine ⟨hset, fun a ha => ?_, _, mem_ramPut_self hfree, _, rfl, newSlot_madeFrom ..⟩
  rcases List.mem_append.mp ha with ha | ha
  · exact hlogged a ha
  · obtain rfl := List.mem_singleton.mp ha
    exact hpair

/-- A signature is made of the least hashes of the content words, so it depends on nothing else; and
once a store of a prompt has returned 1, every prompt with the same content words hits until RAM is
cleared. -/
theorem signature_of_words :
    (∀ (prompt : CString) (k : Fin cacheSigK),
      IsMinHash (contentWords prompt) k ((cacheSig prompt).get k)) ∧
    ∀ p q : CString, contentWords p = contentWords q → cacheSig p = cacheSig q ∧
      ∀ (before after : List CacheOp) (bmap : Nat → Bool) (junk : CacheSlot) (role val : CString)
        (s t : LogState) (out : List UInt8) (outmax : Int), role.length < 16 →
        exec cacheNext .init before = some s →
        (cacheSet bmap junk s.st role p val).1 = true →
        exec cacheNext (cacheStep s (.set bmap junk role p val)) after = some t →
        (∀ op ∈ after, op.KeepsRam) →
        NoCollision ((role, p) :: (before ++ after).filterMap CacheOp.pair) →
        (cacheGet t.st role q out outmax).hit = true := by
  refine ⟨cacheSig_isMinHash, fun p q hwords => ⟨cacheSig_congr hwords, ?_⟩⟩
  intro before after bmap junk role val s t out outmax hrole hbefore hstored hafter hkeep hcoll
  let pairs := (role, p) :: (before ++ after).filterMap CacheOp.pair
  have hpair : (role, p) ∈ pairs := List.mem_cons_self
  have hlogged : ∀ a ∈ s.log, a.pair ∈ pairs := by
    intro a ha
    have := exec_logged hbefore a ha
    simp [pairs, List.filterMap_append, this]
  have hset : ResidentPair pairs (role, p) (cacheStep s (.set bmap junk role p val)) :=
    .of_stored (.of_exec hbefore) hlogged hpair hstored
  have hend : ResidentPair pairs (role, p) t := by
    refine exec_invariant_of_along (C := fun _ _ _ => True) ?_ hset hafter (along_true _ _)
    intro u op v hop hu hv _
    obtain rfl := Option.some.inj hv
    refine hu.step hcoll hpair (fun a ha => ?_) (hkeep op hop)
    refine List.mem_cons_of_mem _ (List.mem_filterMap.mpr ⟨op, ?_, ha⟩)
    exact List.mem_append_right _ hop
  exact hend.hit hwords hrole out outmax

/-- The pair is stored once more and another prompt behind it. -/
def storedTwice : List CacheOp :=
  [.set (fun _ => true) .zero (.lit "p") (.lit "list files") (.lit "B"),
    .set (fun _ => false) .zero (.lit "p") (.lit "disk usage") (.lit "C")]

theorem paraphrase_hits_storedTwice :
    (cacheGet (storedTwice.foldl cacheStep (cacheStep .init (.set (fun _ => true) .zero (.lit "p")
      (.lit "list files") (.lit "A")))).st (.lit "p") (.lit "Please LIST the files!") [] 0).hit =
        true := by
  have hwords : contentWords (.lit "list files") =
      contentWords (.lit "Please LIST the files!") := by
    decide +kernel
  exact (signature_of_words.2 _ _ hwords).2 [] storedTwice (fun _ => true) .zero (.lit "p")
    (.lit "A") .init _ [] 0 (by decide) rfl (by decide +kernel) (exec_cacheNext _ storedTwice)
    (by decide) (by decide +kernel)

/-! ## Hits have a word in common -/

/-- A hit under another key: RAM does not hold the query's own, and the record is a paraphrase from
RAM, or one from the overlay if that does not hold it either. -/
theorem hitRecord_other_key {st : CacheState} {role prompt : CString} {rec : CacheSlot}
    (h : hitRecord st role prompt = some rec) (hkey : rec.key ≠ cacheFnv1a role prompt) :
    (∀ r ∈ st.ram.toList, r.key ≠ cacheFnv1a role prompt) ∧ sameRole role rec = true ∧
      7 ≤ sigMatch (cacheSig prompt) rec.sig ∧
      (rec ∈ st.ram.toList ∧ rec.key ≠ 0 ∨ rec ∈ diskRecords st.disk ∧
        ∀ r ∈ diskRecords st.disk, r.key ≠ cacheFnv1a role prompt) := by
  rw [hitRecord, Option.or_eq_some_iff, Option.or_eq_some_iff] at h
  rcases h with h | ⟨hexact, h | ⟨-, h⟩⟩
  · exact absurd (mem_of_ramExact h).2 hkey
  · rw [ramSemantic_eq] at h
    obtain ⟨hmem, hne, hrole, hover⟩ := mem_of_semanticMatch h
    exact ⟨(ramExact_eq_none_iff _ _).mp hexact, hrole, (sigOverThreshold_iff _).mp hover,
      Or.inl ⟨hmem, hne⟩⟩
  · rw [cacheDiskScan_eq, Option.or_eq_some_iff] at h
    rcases h with hlast | ⟨hnone, hsem⟩
    · exact absurd (mem_of_lastFor hlast).2 hkey
    · obtain ⟨hmem, -, hrole, hover⟩ := mem_of_semanticMatch hsem
      exact ⟨(ramExact_eq_none_iff _ _).mp hexact, hrole, (sigOverThreshold_iff _).mp hover,
        Or.inr ⟨hmem, lastFor_eq_none_iff.mp hnone⟩⟩

/-- Whatever a lookup hits under another key was stored for a prompt that has a content word in
common with the query. -/
def HitsShareWord (s : LogState) (role q : CString) : Prop :=
  ∀ rec ∈ hitRecord s.st role q, rec.key ≠ cacheFnv1a role q → ∀ e ∈ s.log, MadeFrom rec e →
    ∃ w ∈ contentWords q, w ∈ contentWords e.prompt

/-- The record was stored for a prompt without content words. -/
def StoredWordless (log : List Entry) (rec : CacheSlot) : Prop :=
  ∃ e ∈ log, MadeFrom rec e ∧ contentWords e.prompt = ∅

/-- The query has a content word; or RAM holds its key; or RAM holds no record of the role for a
prompt without content words, and the overlay holds the key or no such record either. -/
def NoWordlessAnswer (s : LogState) (role q : CString) : Prop :=
  contentWords q ≠ ∅ ∨ (∃ rec ∈ s.st.ram.toList, rec.key = cacheFnv1a role q) ∨
    (∀ rec ∈ s.st.ram.toList, rec.key ≠ 0 → sameRole role rec = true →
        ¬ StoredWordless s.log rec) ∧
      ((∃ rec ∈ diskRecords s.st.disk, rec.key = cacheFnv1a role q) ∨
        ∀ rec ∈ diskRecords s.st.disk, sameRole role rec = true → ¬ StoredWordless s.log rec)

theorem exists_get_eq_of_sigMatch {a b : Sig} (h : 7 ≤ sigMatch a b) :
    ∃ k, a.get k = b.get k := by
  have hpos : 0 < sigMatch a b := by omega
  obtain ⟨k, -, hk⟩ := List.countP_pos_iff.mp hpos
  exact ⟨k, by simpa using hk⟩

/-- Without words on either side all positions agree. -/
theorem answers_of_wordless {rec : CacheSlot} {e : Entry} (h : MadeFrom rec e) {role q : CString}
    (hrole : sameRole role rec = true) (he : contentWords e.prompt = ∅)
    (hq : contentWords q = ∅) : rec.Answers role q := by
  refine Or.inr ⟨hrole, ?_⟩
  rw [h.sig, cacheSig_congr (hq.trans he.symm), sigMatch_self]
  decide

/-- A hit that has no word in common with a query without words. -/
theorem not_hitsShareWord {s : LogState} (hs : Provenance s) {role q : CString}
    (hq : contentWords q = ∅) {found : CacheSlot} (hhit : hitRecord s.st role q = some found)
    (hkey : found.key ≠ cacheFnv1a role q) : ¬ HitsShareWord s role q := by
  intro h
  obtain ⟨e, he, hmade⟩ := hs.entry_of_hit hhit
  obtain ⟨w, hw, -⟩ := h found hhit hkey e he hmade
  simp [hq] at hw

theorem HitsShareWord.noWordlessAnswer {s : LogState} (hs : Provenance s) {role q : CString}
    (h : HitsShareWord s role q) : NoWordlessAnswer s role q := by
  by_cases hq : contentWords q = ∅
  swap
  · exact Or.inl hq
  by_cases hexact : ∃ rec ∈ s.st.ram.toList, rec.key = cacheFnv1a role q
  · exact Or.inr (Or.inl hexact)
  have hexact' : ∀ rec ∈ s.st.ram.toList, rec.key ≠ cacheFnv1a role q :=
    fun rec hrec hkey => hexact ⟨rec, hrec, hkey⟩
  -- a record without words in RAM answers, and so does one of the overlay behind it
  have hram : ∀ rec ∈ s.st.ram.toList, rec.key ≠ 0 → ¬ rec.Answers role q := by
    rw [← ramMiss_iff]
    by_contra hmiss
    cases hhit : hitRecord s.st role q with
    | none => exact hmiss (ramMiss_iff.mpr (hitRecord_eq_none_iff.mp hhit).1)
    | some found =>
      refine not_hitsShareWord hs hq hhit ?_ h
      rcases mem_of_hitRecord hhit with ⟨hmem, -⟩ | ⟨hno, -⟩
      · exact hexact' found hmem
      · exact absurd hno hmiss
  refine Or.inr (Or.inr ⟨fun rec hrec hne hrole ⟨e, _, hmade, he⟩ => ?_, ?_⟩)
  · exact hram rec hrec hne (answers_of_wordless hmade hrole he hq)
  by_cases hdisk : ∃ rec ∈ diskRecords s.st.disk, rec.key = cacheFnv1a role q
  · exact Or.inl hdisk
  refine Or.inr fun rec hrec hrole ⟨e, _, hmade, he⟩ => ?_
  cases hhit : hitRecord s.st role q with
  | none =>
    exact (hitRecord_eq_none_iff.mp hhit).2 rec hrec (answers_of_wordless hmade hrole he hq)
  | some found =>
    refine not_hitsShareWord hs hq hhit (fun hkey => ?_) h
    rcases mem_of_hitRecord hhit with ⟨hmem, -⟩ | ⟨-, hmem⟩
    · exact hexact' found hmem hkey
    · exact hdisk ⟨found, hmem, hkey⟩

theorem NoWordlessAnswer.hitsShareWord {s : LogState} {role q : CString}
    (hapart : ∀ e ∈ s.log, HashedApart (contentWords q ∪ contentWords e.prompt))
    (h : NoWordlessAnswer s role q) : HitsShareWord s role q := by
  intro rec hhit hkey e he hmade
  obtain ⟨hexact, hrole, hmatch, hplace⟩ := hitRecord_other_key hhit hkey
  rw [hmade.sig] at hmatch
  obtain ⟨k, hk⟩ := exists_get_eq_of_sigMatch hmatch
  rcases h with hq | ⟨rec', hrec', hkey'⟩ | ⟨hram, hdisk⟩
  · exact exists_common_word (hapart e he) hq hk
  · exact absurd hkey' (hexact rec' hrec')
  by_cases hq : contentWords q = ∅
  swap
  · exact exists_common_word (hapart e he) hq hk
  -- then the entry has no words either, and its record is ruled out
  have hwordless : StoredWordless s.log rec := by
    refine ⟨e, he, hmade, (get_cacheSig_eq_max_iff k fun w hw => ?_).mp ?_⟩
    · exact (hapart e he k).2 w (Finset.mem_union_right _ hw)
    · rw [← hk, get_cacheSig_of_wordless hq]
  rcases hplace with ⟨hmem, hne⟩ | ⟨hmem, hno⟩
  · exact absurd hwordless (hram rec hmem hne hrole)
  · rcases hdisk with ⟨rec', hrec', hkey'⟩ | hdisk
    · exact absurd hkey' (hno rec' hrec')
    · exact absurd hwordless (hdisk rec hmem hrole)

/-- In every state a run reaches, with hashes that tell the words apart: hits under another key have
a word in common with the query exactly if no record without words can answer one without words. -/
theorem hitsShareWord_iff {ops : List CacheOp} {s : LogState} {role q : CString}
    (hrun : exec cacheNext .init ops = some s)
    (hapart : ∀ e ∈ s.log, HashedApart (contentWords q ∪ contentWords e.prompt)) :
    HitsShareWord s role q ↔ NoWordlessAnswer s role q :=
  ⟨fun h => h.noWordlessAnswer (.of_exec hrun), fun h => h.hitsShareWord hapart⟩

/-- Two prompts, one of them without content words. -/
def wordlessStored : List CacheOp :=
  [.set (fun _ => true) .zero (.lit "p") (.lit "the") (.lit "A"),
    .set (fun _ => true) .zero (.lit "p") (.lit "list files") (.lit "B")]

theorem wordlessStored_hitsShareWord :
    HitsShareWord (runOps wordlessStored) (.lit "p") (.lit "list all files") := by
  have hrun : exec cacheNext .init wordlessStored = some (runOps wordlessStored) :=
    exec_cacheNext _ _
  refine (hitsShareWord_iff hrun ?_).mpr (Or.inl (by decide +kernel))
  have hlog : (runOps wordlessStored).log =
      [⟨.lit "p", .lit "the", .lit "A"⟩, ⟨.lit "p", .lit "list files", .lit "B"⟩] := by
    decide +kernel
  rw [hlog]
  exact List.forall_mem_cons.mpr ⟨by decide +kernel, List.forall_mem_cons.mpr
    ⟨by decide +kernel, by simp⟩⟩

/-- The query `please` is answered with what was stored for `the`. -/
theorem wordless_prompts_hit :
    ¬ ∀ (ops : List CacheOp) (s : LogState) (role q : CString),
      exec cacheNext .init ops = some s →
      (∀ e ∈ s.log, HashedApart (contentWords q ∪ contentWords e.prompt)) →
      HitsShareWord s role q := by
  intro h
  let ops : List CacheOp := [.set (fun _ => true) .zero (.lit "p") (.lit "the") (.lit "A")]
  have hrun := exec_cacheNext .init ops
  have hlog : (runOps ops).log = [⟨.lit "p", .lit "the", .lit "A"⟩] := by decide +kernel
  have hshare := h ops (runOps ops) (.lit "p") (.lit "please") hrun (by
    rw [hlog]
    exact List.forall_mem_cons.mpr ⟨by decide +kernel, by simp⟩)
  have hother : (hitRecord (runOps ops).st (.lit "p") (.lit "please")).any
      (fun rec => rec.key != cacheFnv1a (.lit "p") (.lit "please")) = true := by
    decide +kernel
  obtain ⟨found, hfound, hkey⟩ := (Option.any_eq_true _ _).mp hother
  exact not_hitsShareWord (.of_exec hrun) (by decide +kernel) hfound (by simpa using hkey) hshare

end LiberalOS.Cache
