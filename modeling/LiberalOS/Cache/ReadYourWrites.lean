import LiberalOS.Cache.Exactness
import LiberalOS.Cache.Misses

/-!
# Reading back what was stored

A record that `cache_set` put into RAM stays there until a clear or a later store of the same pair:
nothing is evicted, and a promotion writes over another slot. The last point is not obvious, as the
overlay keeps old versions of the key. But a promotion follows a miss in RAM, and a version of the
key on disk answers a query, exactly or as a paraphrase, only if the resident one does.

## Main results

* `cacheGet_after_cacheSet` — every later lookup of the pair delivers the value stored.
-/
namespace LiberalOS.Cache
open Foundation Kernel

/-! ## The table keeps what it holds -/

/-- A put leaves every other occupied slot in place. -/
theorem mem_ramPut_of_ne {rec s : CacheSlot} {t : RamTable} (hs : s ∈ t.toList) (hne : s.key ≠ 0)
    (hkey : s.key ≠ rec.key) : s ∈ (ramPut rec t).toList := by
  rcases ramPut_cases rec t with ⟨-, heq⟩ | ⟨i, old, hold, hslot, heq⟩
  · rwa [heq]
  obtain ⟨j, hj⟩ := List.getElem?_of_mem hs
  have hij : i ≠ j := by
    rintro rfl
    obtain rfl : old = s := Option.some.inj (hold.symm.trans hj)
    rcases hslot with hsame | ⟨hzero, -⟩
    · exact hkey hsame
    · exact hne hzero
  refine List.mem_of_getElem? (i := j) ?_
  rw [heq, getElem?_assign hold, if_neg hij, hj]

/-- A put with room for the record stores it. -/
theorem mem_ramPut_self {rec : CacheSlot} {t : RamTable} (h : freeOrMatch rec.key t = true) :
    rec ∈ (ramPut rec t).toList := by
  rcases ramPut_cases rec t with ⟨hfull, -⟩ | ⟨i, old, hold, -, heq⟩
  · obtain ⟨s, hs, hany⟩ := List.any_eq_true.mp h
    obtain ⟨hk, h0⟩ := hfull s hs
    simp [hk, h0] at hany
  · refine List.mem_of_getElem? (i := i) ?_
    rw [heq, getElem?_assign hold, if_pos rfl]

/-- With distinct keys the exact loop finds the one slot with the key. -/
theorem ramExact_eq_some_iff {t : RamTable} (h : DistinctKeys t) {k : UInt64} (hk : k ≠ 0)
    {rec : CacheSlot} : ramExact k t = some rec ↔ rec ∈ t.toList ∧ rec.key = k := by
  constructor
  · exact mem_of_ramExact
  · rintro ⟨hrec, hkey⟩
    cases hexact : ramExact k t with
    | none => exact absurd hkey ((ramExact_eq_none_iff _ _).mp hexact rec hrec)
    | some found =>
      obtain ⟨hmem, hfound⟩ := mem_of_ramExact hexact
      obtain ⟨i, hi⟩ := List.getElem?_of_mem hmem
      obtain ⟨j, hj⟩ := List.getElem?_of_mem hrec
      obtain rfl : i = j := h i j found rec hi hj (hfound.trans hkey.symm) (hfound ▸ hk)
      exact hi.symm.trans hj

/-! ## Resident entries -/

/-- RAM holds a record made from the entry, and every stored pair is among `pairs`. -/
structure Resident (pairs : List (CString × CString)) (e : Entry) (s : LogState) : Prop
    extends Provenance s where
  logged : ∀ a ∈ s.log, a.pair ∈ pairs
  held : ∃ rec ∈ s.st.ram.toList, MadeFrom rec e

/-- The operation neither clears RAM nor stores the pair. -/
def CacheOp.Spares (role prompt : CString) : CacheOp → Prop
  | .set _ _ r p _ => (r, p) ≠ (role, prompt)
  | .get .. => True
  | .clear _ | .reboot => False

instance (role prompt : CString) : ∀ op, Decidable (CacheOp.Spares role prompt op)
  | .set _ _ r p _ => inferInstanceAs (Decidable ((r, p) ≠ (role, prompt)))
  | .get .. => isTrue trivial
  | .clear _ | .reboot => isFalse id

/-- A record that is promoted never carries the key of a resident one. -/
theorem Resident.promoted_key_ne {pairs : List (CString × CString)} {e : Entry} {s : LogState}
    (h : Resident pairs e s) (hcoll : NoCollision pairs) (he : e.pair ∈ pairs)
    {role prompt : CString} (hmiss : RamMiss role prompt s.st.ram) {promo : CacheSlot}
    (hscan : cacheDiskScan role (cacheFnv1a role prompt) (cacheSig prompt) s.st.disk = some promo) :
    promo.key ≠ e.key := by
  intro hkey
  obtain ⟨a, ha, hmade⟩ := h.disk promo (mem_of_cacheDiskScan hscan)
  obtain ⟨rec, hrec, hheld⟩ := h.held
  have hpair : a.pair = e.pair := hcoll _ (h.logged a ha) _ he (hmade.key.symm.trans hkey)
  obtain ⟨hrole, hprompt⟩ := Prod.mk.inj hpair
  -- both records have the role, the signature and the key of one pair, so both answer the query
  have hpromo : promo.Answers role prompt := by
    rw [cacheDiskScan_eq, Option.or_eq_some_iff] at hscan
    rcases hscan with hlast | ⟨-, hsem⟩
    · exact Or.inl (mem_of_lastFor hlast).2
    · exact Or.inr (mem_of_semanticMatch hsem).2.2
  have hmatch : e.Matches role prompt := by
    have := (hmade.answers_iff role prompt).mp hpromo
    simpa [Entry.Matches, Entry.key, hrole, hprompt] using this
  exact ramMiss_iff.mp hmiss rec hrec hheld.key_ne_zero ((hheld.answers_iff role prompt).mpr hmatch)

theorem Resident.step {pairs : List (CString × CString)} {e : Entry} {s : LogState}
    (h : Resident pairs e s) (hcoll : NoCollision pairs) (he : e.pair ∈ pairs) {op : CacheOp}
    (hop : ∀ a ∈ op.pair, a ∈ pairs) (hspare : op.Spares e.role e.prompt) :
    Resident pairs e (cacheStep s op) := by
  have hprov := h.toProvenance.step op
  obtain ⟨rec, hrec, hheld⟩ := h.held
  cases op with
  | set bmap junk role prompt val =>
    rcases cacheStep_set_cases s bmap junk role prompt val with hsame | ⟨-, heq⟩
    · rwa [hsame]
    have hin : (role, prompt) ∈ pairs := hop _ rfl
    have hkey : rec.key ≠ (newSlot junk role prompt val).key := by
      intro hk
      exact hspare (hcoll _ hin _ he (hk.symm.trans hheld.key))
    rw [heq] at hprov ⊢
    refine ⟨hprov, fun a ha => ?_, rec, mem_ramPut_of_ne hrec hheld.key_ne_zero hkey, hheld⟩
    rcases List.mem_append.mp ha with ha | ha
    · exact h.logged a ha
    · obtain rfl := List.mem_singleton.mp ha
      exact hin
  | get role prompt out outmax =>
    refine ⟨hprov, h.logged, rec, ?_, hheld⟩
    simp only [cacheStep, cacheGet_eq, ramAfterGet]
    cases hhit : hitRecord s.st role prompt with
    | none => exact hrec
    | some promo =>
      by_cases hmiss : RamMiss role prompt s.st.ram
      · have hscan : cacheDiskScan role (cacheFnv1a role prompt) (cacheSig prompt) s.st.disk =
            some promo := by
          simpa [hitRecord, hmiss.1, hmiss.2] using hhit
        have hne := h.promoted_key_ne hcoll he hmiss hscan
        simpa [hmiss] using mem_ramPut_of_ne hrec hheld.key_ne_zero
          fun hk => hne (hk.symm.trans hheld.key)
      · simpa [hmiss] using hrec
  | clear disk => exact hspare.elim
  | reboot => exact hspare.elim

/-- A resident entry answers its own pair, cut to the caller's buffer and terminated. -/
theorem Resident.answer {pairs : List (CString × CString)} {e : Entry} {s : LogState}
    (h : Resident pairs e s) {out : List UInt8} {outmax : Int} (h1 : 1 ≤ outmax)
    (h2 : outmax ≤ out.length) :
    (cacheGet s.st e.role e.prompt out outmax).hit = true ∧
      (cacheGet s.st e.role e.prompt out outmax).out.take
          (min e.val.length (min 191 (outmax.toNat - 1)) + 1) =
        e.val.bytes.take (min e.val.length (min 191 (outmax.toNat - 1))) ++ [0] := by
  obtain ⟨rec, hrec, hheld⟩ := h.held
  have hexact : ramExact (cacheFnv1a e.role e.prompt) s.st.ram = some rec :=
    (ramExact_eq_some_iff h.distinct (cacheFnv1a_ne_zero _ _)).mpr ⟨hrec, hheld.key⟩
  have hhit : hitRecord s.st e.role e.prompt = some rec := by simp [hitRecord, hexact]
  have hstr := cstr_copyValue h1 h2 rec
  rw [hheld.val, Entry.value, List.take_take] at hstr
  have hpos : outmax > 0 := by omega
  have hlen : (copyValue out outmax rec).length = out.length := by simp [copyValue, hpos]
  have hcut : (cstr (copyValue out outmax rec)).length =
      min e.val.length (min 191 (outmax.toNat - 1)) := by
    rw [hstr, List.length_take, CString.length]
    omega
  have hterm : (copyValue out outmax rec).take ((cstr (copyValue out outmax rec)).length + 1) = _ :=
    take_cstr_terminated (by omega)
  rw [hcut, hstr] at hterm
  rw [cacheGet_eq, hhit]
  refine ⟨rfl, hterm.trans ?_⟩
  congr 1
  rw [List.take_eq_take_iff, CString.length]
  omega

/-! ## Runs -/

theorem exec_logged {ops : List CacheOp} {s : LogState}
    (h : exec cacheNext .init ops = some s) : ∀ a ∈ s.log, a.pair ∈ ops.filterMap CacheOp.pair := by
  refine exec_invariant_of_along (C := fun _ _ _ => True)
    (I := fun s => ∀ a ∈ s.log, a.pair ∈ ops.filterMap CacheOp.pair) ?_ (by simp [LogState.init]) h
    (along_true _ _)
  intro s op t hop hs ht _ a ha
  obtain rfl := Option.some.inj ht
  cases op with
  | set bmap junk role prompt val =>
    rcases cacheStep_set_cases s bmap junk role prompt val with hsame | ⟨-, heq⟩
    · exact hs a (hsame ▸ ha)
    · rw [heq] at ha
      rcases List.mem_append.mp ha with ha | ha
      · exact hs a ha
      · obtain rfl := List.mem_singleton.mp ha
        exact List.mem_filterMap.mpr ⟨_, hop, rfl⟩
  | get role prompt out outmax => exact hs a ha
  | clear disk => exact hs a ha
  | reboot => exact hs a ha

/-- Once a store has returned 1, every lookup of the pair hits and delivers the value stored, as
long as RAM is not cleared and the pair is not stored again. Appends may fail at any time. -/
theorem cacheGet_after_cacheSet {before after : List CacheOp} {bmap : Nat → Bool}
    {junk : CacheSlot} {role prompt val : CString} {s t : LogState} {out : List UInt8}
    {outmax : Int} (hbefore : exec cacheNext .init before = some s)
    (hstored : (cacheSet bmap junk s.st role prompt val).1 = true)
    (hafter : exec cacheNext (cacheStep s (.set bmap junk role prompt val)) after = some t)
    (hspare : ∀ op ∈ after, op.Spares role prompt)
    (hcoll : NoCollision ((role, prompt) :: (before ++ after).filterMap CacheOp.pair))
    (h1 : 1 ≤ outmax) (h2 : outmax ≤ out.length) :
    (cacheGet t.st role prompt out outmax).hit = true ∧
      (cacheGet t.st role prompt out outmax).out.take
          (min val.length (min 191 (outmax.toNat - 1)) + 1) =
        val.bytes.take (min val.length (min 191 (outmax.toNat - 1))) ++ [0] := by
  let pairs := (role, prompt) :: (before ++ after).filterMap CacheOp.pair
  let e : Entry := ⟨role, prompt, val⟩
  have he : e.pair ∈ pairs := List.mem_cons_self
  have hprov := (Provenance.of_exec hbefore).set bmap junk role prompt val
  have hset : Resident pairs e (cacheStep s (.set bmap junk role prompt val)) := by
    rcases cacheStep_set_cases s bmap junk role prompt val with hsame | ⟨hfree, heq⟩
    · have hlog := congrArg LogState.log hsame
      simp [cacheStep, hstored] at hlog
    · rw [heq] at hprov ⊢
      refine ⟨hprov, fun a ha => ?_, _, mem_ramPut_self hfree, newSlot_madeFrom junk _ _ _⟩
      rcases List.mem_append.mp ha with ha | ha
      · have := exec_logged hbefore a ha
        simp [pairs, List.filterMap_append, this]
      · obtain rfl := List.mem_singleton.mp ha
        exact he
  have hend : Resident pairs e t := by
    refine exec_invariant_of_along (C := fun _ _ _ => True) ?_ hset hafter (along_true _ _)
    intro u op v hop hu hv _
    obtain rfl := Option.some.inj hv
    refine hu.step hcoll he (fun a ha => ?_) (hspare op hop)
    refine List.mem_cons_of_mem _ (List.mem_filterMap.mpr ⟨op, ?_, ha⟩)
    exact List.mem_append_right _ hop
  exact hend.answer h1 h2

/-- An old version of the pair on disk, and another prompt. -/
def storedAndCleared : List CacheOp :=
  let p := CString.lit "p"
  [.set (fun _ => true) .zero p (.lit "list files") (.lit "A"),
    .set (fun _ => true) .zero p (.lit "disk usage report") (.lit "C"),
    .clear 0]

/-- The new version is not appended, for want of a second block, and the other prompt is promoted
behind it. -/
def newVersionInRam : LogState :=
  cacheStep (cacheStep (runOps storedAndCleared)
    (.set (fun _ => false) .zero (.lit "p") (.lit "list files") (.lit "B")))
    (.get (.lit "p") (.lit "disk usage report") [] 0)

theorem newVersionInRam_cacheGet :
    (cacheGet newVersionInRam.st (.lit "p") (.lit "list files") (List.replicate 8 1) 8).hit = true ∧
      (cacheGet newVersionInRam.st (.lit "p") (.lit "list files") (List.replicate 8 1) 8).out.take
          (min (CString.lit "B").length (min 191 (Int.toNat 8 - 1)) + 1) =
        (CString.lit "B").bytes.take (min (CString.lit "B").length (min 191 (Int.toNat 8 - 1))) ++
          [0] :=
  @cacheGet_after_cacheSet storedAndCleared [.get (.lit "p") (.lit "disk usage report") [] 0]
    (fun _ => false) .zero _ _ _ _ _ _ _ (exec_cacheNext _ storedAndCleared) (by decide +kernel)
    rfl (by decide) (by decide +kernel) (by decide) (by decide)

end LiberalOS.Cache
