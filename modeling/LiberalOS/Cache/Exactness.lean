import LiberalOS.Cache.Runs

/-!
# Exact and semantic answers

The tiers of `cache_get` are RAM exact, RAM semantic, disk exact, disk semantic, in this order. An
exact record answers from RAM always, and from the overlay as long as RAM has no paraphrase of the
prompt; otherwise the paraphrase answers.

## Main results

* `exact_answer_of_tiers` — which tier answers when a record with the key exists.
-/
namespace LiberalOS.Cache
open Foundation Kernel

def Entry.pair (e : Entry) : CString × CString := (e.role, e.prompt)

/-- The table holds an occupied slot of the role whose signature agrees with the prompt's in at
least 7 of the 16 positions. -/
def RamParaphrase (role prompt : CString) (t : RamTable) : Prop :=
  ∃ rec ∈ t.toList, rec.key ≠ 0 ∧ sameRole role rec = true ∧
    7 ≤ sigMatch (cacheSig prompt) rec.sig

/-- A lookup with this buffer hits and delivers the value of the entry. -/
def Answers (st : CacheState) (role prompt : CString) (out : List UInt8) (outmax : Int)
    (e : Entry) : Prop :=
  (cacheGet st role prompt out outmax).hit = true ∧
    cstr (cacheGet st role prompt out outmax).out = e.value.take (outmax.toNat - 1)

instance (st : CacheState) (role prompt : CString) (out : List UInt8) (outmax : Int) (e : Entry) :
    Decidable (Answers st role prompt out outmax e) := inferInstanceAs (Decidable (_ ∧ _))

theorem ramSemantic_eq_none_iff (role prompt : CString) (t : RamTable) :
    ramSemantic role (cacheSig prompt) t = none ↔ ¬ RamParaphrase role prompt t := by
  rw [ramSemantic_eq, semanticMatch_eq_none_iff]
  constructor
  · rintro h ⟨rec, hrec, hk, hr, hover⟩
    have := (sigOverThreshold_iff _).mpr hover
    simp [h rec hrec hk hr] at this
  · intro h rec hrec hk hr
    by_contra hover
    exact h ⟨rec, hrec, hk, hr, (sigOverThreshold_iff _).mp (by simpa using hover)⟩

/-- The entry behind a hit decides what is delivered. -/
theorem MadeFrom.answers {st : CacheState} {role prompt : CString} {rec : CacheSlot} {e : Entry}
    (h : MadeFrom rec e) (hhit : hitRecord st role prompt = some rec) {out : List UInt8}
    {outmax : Int} (h1 : 1 ≤ outmax) (h2 : outmax ≤ out.length) :
    Answers st role prompt out outmax e := by
  rw [Answers, cacheGet_eq, hhit, ← h.val]
  exact ⟨rfl, cstr_copyValue h1 h2 rec⟩

/-- Where a hit with the exact key comes from, in terms of tiers. -/
theorem hitRecord_exact {st : CacheState} {role prompt : CString}
    (h : (∃ rec ∈ st.ram.toList, rec.key = cacheFnv1a role prompt) ∨
      ¬ RamParaphrase role prompt st.ram ∧
        ∃ rec ∈ diskRecords st.disk, rec.key = cacheFnv1a role prompt) :
    ∃ rec, hitRecord st role prompt = some rec ∧ rec.key = cacheFnv1a role prompt := by
  cases hram : ramExact (cacheFnv1a role prompt) st.ram with
  | some rec => exact ⟨rec, by simp [hitRecord, hram], (mem_of_ramExact hram).2⟩
  | none =>
    rcases h with ⟨rec, hrec, hkey⟩ | ⟨hsem, rec, hrec, hkey⟩
    · exact absurd hkey ((ramExact_eq_none_iff _ _).mp hram rec hrec)
    · obtain ⟨last, hlast⟩ := exists_lastFor CacheSlot.key hrec
      rw [hkey] at hlast
      refine ⟨last, ?_, (mem_of_lastFor hlast).2⟩
      rw [hitRecord, hram, (ramSemantic_eq_none_iff role prompt st.ram).mpr hsem, cacheDiskScan_eq,
        hlast]
      rfl

/-- A paraphrase in RAM answers when RAM has no exact record. -/
theorem hitRecord_paraphrase {st : CacheState} {role prompt : CString}
    (hno : ∀ rec ∈ st.ram.toList, rec.key ≠ cacheFnv1a role prompt)
    (hsem : RamParaphrase role prompt st.ram) :
    ∃ rec ∈ st.ram.toList, hitRecord st role prompt = some rec ∧ rec.key ≠ 0 ∧
      sameRole role rec = true ∧ 7 ≤ sigMatch (cacheSig prompt) rec.sig := by
  cases hm : ramSemantic role (cacheSig prompt) st.ram with
  | none => exact absurd hsem ((ramSemantic_eq_none_iff role prompt st.ram).mp hm)
  | some rec =>
    have hhit : hitRecord st role prompt = some rec := by
      rw [hitRecord, (ramExact_eq_none_iff _ _).mpr hno, hm]
      rfl
    rw [ramSemantic_eq] at hm
    obtain ⟨hmem, hkey, hrole, hover⟩ := mem_of_semanticMatch hm
    exact ⟨rec, hmem, hhit, hkey, hrole, (sigOverThreshold_iff _).mp hover⟩

/-- In every reachable state and for every pair, without key collisions: a record with the exact
key answers from RAM, and from the overlay unless RAM holds a paraphrase; a paraphrase in RAM that
has no exact record beside it answers itself. -/
theorem exact_answer_of_tiers {ops : List CacheOp} {s : LogState} {role prompt : CString}
    {out : List UInt8} {outmax : Int} (hrun : exec cacheNext .init ops = some s)
    (hcoll : NoCollision ((role, prompt) :: s.log.map Entry.pair)) (h1 : 1 ≤ outmax)
    (h2 : outmax ≤ out.length) :
    ((∃ rec ∈ s.st.ram.toList, rec.key = cacheFnv1a role prompt) ∨
        ¬ RamParaphrase role prompt s.st.ram ∧
          (∃ rec ∈ diskRecords s.st.disk, rec.key = cacheFnv1a role prompt) →
      ∃ e ∈ s.log, e.role = role ∧ e.prompt = prompt ∧ Answers s.st role prompt out outmax e) ∧
    ((∀ rec ∈ s.st.ram.toList, rec.key ≠ cacheFnv1a role prompt) →
        RamParaphrase role prompt s.st.ram →
      ∃ e ∈ s.log, e.role.bytes.take 15 = role.bytes.take 16 ∧
        7 ≤ sigMatch (cacheSig prompt) (cacheSig e.prompt) ∧
        Answers s.st role prompt out outmax e) := by
  have hprov := Provenance.of_exec hrun
  constructor
  · intro hex
    obtain ⟨rec, hhit, hkey⟩ := hitRecord_exact hex
    obtain ⟨e, he, hmade⟩ := hprov.entry_of_hit hhit
    -- the pair of the entry and the queried pair have the same key
    have hpair : (role, prompt) = e.pair := by
      refine hcoll _ List.mem_cons_self _ ?_ (hkey.symm.trans hmade.key)
      exact List.mem_cons_of_mem _ (List.mem_map_of_mem he)
    obtain ⟨hrole, hprompt⟩ := Prod.mk.inj hpair
    exact ⟨e, he, hrole.symm, hprompt.symm, hmade.answers hhit h1 h2⟩
  · intro hno hsem
    obtain ⟨rec, hmem, hhit, hne, hrole, hover⟩ := hitRecord_paraphrase hno hsem
    obtain ⟨e, he, hmade⟩ := hprov.ram rec hmem hne
    exact ⟨e, he, (hmade.sameRole_iff role).mp hrole, hmade.sig ▸ hover,
      hmade.answers hhit h1 h2⟩

/-- Two paraphrases under one role, of which a clear and a lookup leave only the first in RAM. -/
def paraphraseInRam : List CacheOp :=
  let p := CString.lit "p"
  [.set (fun _ => true) .zero p (.lit "list files") (.lit "A"),
    .set (fun _ => true) .zero p (.lit "files list") (.lit "B"),
    .clear 0,
    .get p (.lit "list files") (List.replicate 192 0) 192]

theorem paraphraseInRam_exact_answer :
    ∃ e ∈ (runOps paraphraseInRam).log, e.role = .lit "p" ∧ e.prompt = .lit "list files" ∧
      Answers (runOps paraphraseInRam).st (.lit "p") (.lit "list files") (List.replicate 192 0) 192
        e :=
  (exact_answer_of_tiers (exec_cacheNext _ paraphraseInRam) (by decide +kernel) (by decide)
    (by decide +kernel)).1 (Or.inl (by decide +kernel))

/-- With the exact record on disk only, the paraphrase in RAM answers with its own value. -/
theorem paraphrase_answers_exact_query :
    ¬ ∀ (ops : List CacheOp) (s : LogState) (role prompt : CString) (out : List UInt8)
        (outmax : Int), exec cacheNext .init ops = some s →
      NoCollision ((role, prompt) :: s.log.map Entry.pair) → 1 ≤ outmax → outmax ≤ out.length →
      (∃ rec ∈ s.st.ram.toList ++ diskRecords s.st.disk, rec.key = cacheFnv1a role prompt) →
      ∃ e ∈ s.log, e.role = role ∧ e.prompt = prompt ∧ Answers s.st role prompt out outmax e := by
  intro h
  have hans := h paraphraseInRam (runOps paraphraseInRam) (.lit "p") (.lit "files list")
    (List.replicate 192 0) 192 (exec_cacheNext _ paraphraseInRam) (by decide +kernel) (by decide)
    (by decide +kernel) (by decide +kernel)
  exact absurd hans (by decide +kernel)

end LiberalOS.Cache
