import Mathlib.Data.List.Infix
import LiberalOS.Cache.Concurrent

/-!
# When a promotion brings back an outdated entry

A lookup scans the overlay outside `cache.lock` and writes the record it found into RAM later,
without looking at the table again. A store or a clear that runs in between is undone by it. Two
more interleavings break what a completed call promises: a clear that overtakes a running store
empties its slot, after which a promotion may bring an older version of the key, and a record that
enters RAM between the two sections of `cache_clear(1)` survives it.

## Main results

* `upToDate_of_undisturbed` — runs without these interleavings keep RAM up to date.
-/
namespace LiberalOS.Cache
open Foundation Kernel

/-! ## Statement -/

/-- No slot is older than a store of its key that has returned, as long as no later store of the
key and no clear has started: it holds the value of that store or of one that updated RAM after
it. -/
def NotOutdated (s : SharedState) : Prop :=
  ∀ rec ∈ s.st.ram.toList, rec.key ≠ 0 → ∀ suffix ∈ s.calls.tails, ∀ x ∈ suffix.head?,
    x.key = rec.key → x.done = true → x.closed = false →
      ∃ z ∈ suffix, z.key = rec.key ∧ z.value = rec.valStr

/-- The scan a process is about to make finds nothing. -/
def ScanMisses (disk : Option (List UInt8)) : Option Pending → Prop
  | some (.scan role prompt) =>
    cacheDiskScan role (cacheFnv1a role prompt) (cacheSig prompt) disk = none
  | _ => True

/-- Once a `cache_clear(1)` has returned, lookups miss in RAM and on disk, as long as no store has
been running since. -/
def QuietMiss (s : SharedState) : Section → Prop
  | .lookup _ role prompt => s.quiet = true → RamMiss role prompt s.st.ram
  | .scan p => s.quiet = true → ScanMisses s.st.disk s.procs[p]?
  | _ => True

/-- The promise of completed calls, before a section and after it. -/
def UpToDate (s : SharedState) (l : Section) (t : SharedState) : Prop :=
  NotOutdated t ∧ QuietMiss s l

/-- The promotion a process is about to make comes before the end of a clear. It does not put
another value into a slot that a store has filled since the last clear, nor, where a clear overtook
a store of the key, another value than the latest store of the key had. -/
def PromotesSafely (s : SharedState) : Option Pending → Prop
  | some (.promote rec) => s.quiet = false ∧ ∀ x ∈ lastFor SetCall.key rec.key s.calls,
      (x.cleared = false → ∀ slot ∈ s.st.ram.toList, slot.key = rec.key →
        slot.valStr = rec.valStr) ∧
      (x.cleared = true → (∃ c ∈ s.calls, c.key = rec.key ∧ c.closed = false) →
        rec.valStr = x.value)
  | _ => True

/-- The section does not undo a call that has completed or is about to. -/
def Undisturbed (s : SharedState) : Section → SharedState → Prop
  | .promote p, _ => PromotesSafely s s.procs[p]?
  -- nothing has entered RAM since it was cleared
  | .truncate _, _ => (∀ c ∈ s.calls, c.done = true) → ∀ slot ∈ s.st.ram.toList, slot.key = 0
  | _, _ => True

instance (s : SharedState) : Decidable (NotOutdated s) :=
  inferInstanceAs (Decidable (∀ rec ∈ s.st.ram.toList, rec.key ≠ 0 → ∀ suffix ∈ s.calls.tails,
    ∀ x ∈ suffix.head?, x.key = rec.key → x.done = true → x.closed = false →
      ∃ z ∈ suffix, z.key = rec.key ∧ z.value = rec.valStr))

instance (s : SharedState) : ∀ q, Decidable (PromotesSafely s q)
  | some (.promote rec) => inferInstanceAs (Decidable (s.quiet = false ∧
      ∀ x ∈ lastFor SetCall.key rec.key s.calls,
        (x.cleared = false → ∀ slot ∈ s.st.ram.toList, slot.key = rec.key →
          slot.valStr = rec.valStr) ∧
        (x.cleared = true → (∃ c ∈ s.calls, c.key = rec.key ∧ c.closed = false) →
          rec.valStr = x.value)))
  | none | some .idle | some (.scan ..) | some (.append _) | some .truncate => isTrue trivial

instance : ∀ s l t, Decidable (Undisturbed s l t)
  | s, .promote p, _ => inferInstanceAs (Decidable (PromotesSafely s s.procs[p]?))
  | s, .truncate _, _ => inferInstanceAs (Decidable ((∀ c ∈ s.calls, c.done = true) →
      ∀ slot ∈ s.st.ram.toList, slot.key = 0))
  | _, .lookup .., _ | _, .scan _, _ | _, .update .., _ | _, .append .., _ | _, .clear .., _ =>
    isTrue trivial

/-! ## The invariant -/

/-- The latest store of a key stands: no clear has started since, or one overtook a store of the
key, whose promise is still to be kept. -/
def InForce (calls : List SetCall) (x : SetCall) : Prop :=
  x.cleared = false ∨ ∃ c ∈ calls, c.key = x.key ∧ c.closed = false

/-- Slots hold the value of the latest store of their key, as long as it stands. -/
structure LatestHeld (s : SharedState) : Prop extends Tracked s where
  current : ∀ rec ∈ s.st.ram.toList, rec.key ≠ 0 →
    ∀ x ∈ lastFor SetCall.key rec.key s.calls, InForce s.calls x → rec.valStr = x.value
  held : ∀ k, ∀ x ∈ lastFor SetCall.key k s.calls, x.cleared = false →
    (∃ rec ∈ s.st.ram.toList, rec.key = k) ∨ ∀ rec ∈ s.st.ram.toList, rec.key ≠ 0
  emptied : s.quiet = true → (∀ rec ∈ s.st.ram.toList, rec.key = 0) ∧
    diskRecords s.st.disk = [] ∧ ∀ c ∈ s.calls, c.done = true

theorem LatestHeld.notOutdated {s : SharedState} (h : LatestHeld s) : NotOutdated s := by
  intro rec hrec hne suffix hsuffix x hx hkey hdone hclosed
  obtain ⟨before, hcalls⟩ := (List.mem_tails _ _).mp hsuffix
  obtain ⟨after, rfl⟩ : ∃ after, suffix = x :: after := by
    cases suffix with
    | nil => simp at hx
    | cons a after =>
      obtain rfl : a = x := by simpa using hx
      exact ⟨after, rfl⟩
  have hmem : x ∈ s.calls := by simp [← hcalls]
  -- the latest store of the key is `x` or comes after it
  obtain ⟨z, hz⟩ := exists_lastFor SetCall.key (List.mem_cons_self : x ∈ x :: after)
  have hlast : lastFor SetCall.key rec.key s.calls = some z := by
    rw [← hcalls, lastFor_append, ← hkey, hz]
    rfl
  obtain ⟨hzmem, hzkey⟩ := mem_of_lastFor hz
  have hforce : InForce s.calls z := Or.inr ⟨x, hmem, hzkey.symm, hclosed⟩
  exact ⟨z, hzmem, hzkey.trans hkey, (h.current rec hrec hne z hlast hforce).symm⟩

theorem LatestHeld.quietMiss {s t : SharedState} {l : Section} (h : LatestHeld s)
    (hrun : Runs s l t) : QuietMiss s l := by
  cases hrun with
  | @hit p role prompt _ _ | @miss p role prompt _ _ =>
    intro hquiet
    exact ramMiss_iff.mpr fun rec hrec hne => absurd ((h.emptied hquiet).1 rec hrec) hne
  | diskHit here _ | diskMiss here _ =>
    intro hquiet
    rw [here, ScanMisses, cacheDiskScan_eq_none_iff, (h.emptied hquiet).2.1]
    simp
  | _ => trivial

theorem LatestHeld.init (n : Nat) : LatestHeld (.init n) where
  toTracked := .init n
  current := by simp [SharedState.init]
  held := by simp [SharedState.init]
  emptied := by simp [SharedState.init]

/-! ## Preservation -/

/-- Marks on the history that keep entries and clears, and open no window again, keep the latest
store of each key. -/
theorem lastFor_marked {calls : List SetCall} {f : SetCall → SetCall}
    (hentry : ∀ c, (f c).entry = c.entry) (hclear : ∀ c, (f c).cleared = c.cleared)
    (hclosed : ∀ c, (f c).closed = false → c.closed = false) {k : UInt64}
    {x : SetCall} (hx : x ∈ lastFor SetCall.key k (calls.map f)) :
    ∃ a ∈ lastFor SetCall.key k calls, x.cleared = a.cleared ∧ x.value = a.value ∧
      (InForce (calls.map f) x → InForce calls a) := by
  have hkey : ∀ c, (f c).key = c.key := fun c => by rw [SetCall.key, hentry, SetCall.key]
  rw [lastFor_map hkey, Option.mem_def, Option.map_eq_some_iff] at hx
  obtain ⟨a, ha, rfl⟩ := hx
  refine ⟨a, ha, hclear a, by rw [SetCall.value, hentry, SetCall.value], fun hforce => ?_⟩
  obtain hclearx | ⟨c, hc, hck, hopen⟩ := hforce
  · exact Or.inl ((hclear a).symm.trans hclearx)
  · obtain ⟨b, hb, rfl⟩ := List.mem_map.mp hc
    exact Or.inr ⟨b, hb, by rwa [hkey, hkey] at hck, hclosed b hopen⟩

/-- Moves of processes do not matter. -/
theorem LatestHeld.of_eq {s t : SharedState} (h : LatestHeld s) (ht : Tracked t)
    (hst : t.st = s.st) (hcalls : t.calls = s.calls) (hquiet : t.quiet = s.quiet) :
    LatestHeld t where
  toTracked := ht
  current := by simpa [hst, hcalls] using h.current
  held := by simpa [hst, hcalls] using h.held
  emptied := by simpa [hst, hcalls, hquiet] using h.emptied

/-- A put keeps some slot under the key, and a full table full. -/
theorem held_ramPut {ram : RamTable} {rec : CacheSlot} {k : UInt64} (hk : k ≠ 0)
    (hrec : rec.key ≠ 0)
    (h : (∃ slot ∈ ram.toList, slot.key = k) ∨ ∀ slot ∈ ram.toList, slot.key ≠ 0) :
    (∃ slot ∈ (ramPut rec ram).toList, slot.key = k) ∨
      ∀ slot ∈ (ramPut rec ram).toList, slot.key ≠ 0 := by
  rcases h with ⟨slot, hslot, hkey⟩ | hfull
  · by_cases hsame : k = rec.key
    · refine Or.inl ⟨rec, mem_ramPut_self ?_, hsame.symm⟩
      exact List.any_eq_true.mpr ⟨slot, hslot, by simp [hkey, hsame]⟩
    · exact Or.inl ⟨slot, mem_ramPut_of_ne hslot (hkey ▸ hk) (hkey ▸ hsame), hkey⟩
  · refine Or.inr fun slot hslot => ?_
    rcases mem_ramPut hslot with rfl | hslot
    · exact hrec
    · exact hfull slot hslot

/-- What a promotion puts under the key of a store since the last clear: the key was resident with
this value, or the table was full and has not changed. -/
theorem LatestHeld.promoted_eq {s : SharedState} {rec : CacheSlot} {x : SetCall} (h : LatestHeld s)
    (hne : rec.key ≠ 0) (hmem : rec ∈ (ramPut rec s.st.ram).toList)
    (hx : x ∈ lastFor SetCall.key rec.key s.calls) (hclear : x.cleared = false)
    (hover : ∀ slot ∈ s.st.ram.toList, slot.key = rec.key → slot.valStr = rec.valStr) :
    rec.valStr = x.value := by
  have hresident : ∀ old ∈ s.st.ram.toList, old.key = rec.key → rec.valStr = x.value := by
    intro old hold hkey
    rw [← hover old hold hkey]
    exact h.current old hold (hkey ▸ hne) x (hkey ▸ hx) (Or.inl hclear)
  rcases h.held rec.key x hx hclear with ⟨old, hold, hkey⟩ | hfull
  · exact hresident old hold hkey
  · rcases ramPut_cases rec s.st.ram with ⟨hno, heq⟩ | ⟨i, old, hold, hslot, -⟩
    · exact absurd rfl (hno rec (heq ▸ hmem)).1
    · have holdmem := List.mem_of_getElem? hold
      rcases hslot with hkey | ⟨hzero, -⟩
      · exact hresident old holdmem hkey
      · exact absurd hzero (hfull old holdmem)

theorem LatestHeld.promote {s t : SharedState} {p : Nat} {rec : CacheSlot} (h : LatestHeld s)
    (here : s.procs[p]? = some (.promote rec)) (ht : Tracked t) (hst : t.st = s.st.put rec)
    (hcalls : t.calls = s.calls) (hquiet : t.quiet = s.quiet)
    (hcond : Undisturbed s (.promote p) t) : LatestHeld t := by
  rw [Undisturbed, here] at hcond
  obtain ⟨hloud, hsafe⟩ := hcond
  have hne := h.promoted p rec here
  have hram : t.st.ram = ramPut rec s.st.ram := by rw [hst, CacheState.put]
  refine ⟨ht, ?_, ?_, ?_⟩
  · intro slot hslot hslotne x hx hforce
    rw [hram] at hslot
    rw [hcalls] at hx hforce
    by_cases hkey : slot.key = rec.key
    · obtain rfl := eq_of_mem_ramPut h.distinct hne hslot hkey
      obtain ⟨hover, hovertaken⟩ := hsafe x hx
      cases hclear : x.cleared with
      | false => exact h.promoted_eq hne hslot hx hclear (hover hclear)
      | true =>
        obtain ⟨-, hxkey⟩ := mem_of_lastFor hx
        exact hovertaken hclear (hxkey ▸ hforce.resolve_left (by simp [hclear]))
    · have hold := (mem_ramPut hslot).resolve_left fun heq => hkey (heq ▸ rfl)
      exact h.current slot hold hslotne x hx hforce
  · intro k x hx hclear
    rw [hcalls] at hx
    obtain ⟨-, hxkey⟩ := mem_of_lastFor hx
    rw [hram]
    exact held_ramPut (hxkey ▸ cacheFnv1a_ne_zero _ _) hne (h.held k x hx hclear)
  · intro hq
    rw [hquiet, hloud] at hq
    cases hq

/-- The history of a store that starts, seen from the latest store of each key. -/
theorem lastFor_recordCall {calls : List SetCall} {p : Nat} {e : Entry} {done : Bool} {k : UInt64}
    {x : SetCall} (hx : x ∈ lastFor SetCall.key k (recordCall p e done calls)) :
    (k = e.key ∧ x.value = e.value) ∨
      (k ≠ e.key ∧ ∃ a ∈ lastFor SetCall.key k calls, x.cleared = a.cleared ∧ x.value = a.value ∧
        (InForce (recordCall p e done calls) x → InForce calls a)) := by
  rw [lastFor_recordCall_eq] at hx
  split at hx
  · next hkey =>
    obtain rfl := Option.some.inj hx
    exact Or.inl ⟨hkey.symm, rfl⟩
  · next hkey =>
    obtain ⟨a, ha, rfl⟩ := Option.map_eq_some_iff.mp hx
    refine Or.inr ⟨Ne.symm hkey, a, ha, rfl, rfl, Or.imp_right ?_⟩
    rintro ⟨c, hc, hck, hopen⟩
    rcases List.mem_append.mp hc with hc | hc
    · obtain ⟨b, hb, rfl⟩ := List.mem_map.mp hc
      simp only [close, Bool.or_eq_false_iff] at hopen
      exact ⟨b, hb, hck, hopen.1⟩
    · -- the new store has another key
      obtain rfl := List.mem_singleton.mp hc
      obtain ⟨-, hak⟩ := mem_of_lastFor ha
      exact absurd (hck.trans hak) hkey

theorem LatestHeld.stored {s t : SharedState} {p : Nat} {junk : CacheSlot}
    {role prompt val : CString} (h : LatestHeld s)
    (room : freeOrMatch (cacheFnv1a role prompt) s.st.ram = true) (ht : Tracked t)
    (hst : t.st = s.st.put (newSlot junk role prompt val))
    (hcalls : t.calls = recordCall p ⟨role, prompt, val⟩ false s.calls) (hquiet : t.quiet = false) :
    LatestHeld t := by
  have hnew := newSlot_madeFrom junk role prompt val
  have hram : t.st.ram = ramPut (newSlot junk role prompt val) s.st.ram := by
    rw [hst, CacheState.put]
  refine ⟨ht, ?_, ?_, ?_⟩
  · intro slot hslot hne x hx hforce
    rw [hram] at hslot
    rw [hcalls] at hx hforce
    rcases lastFor_recordCall hx with ⟨hkey, hval⟩ | ⟨hkey, a, ha, -, hav, haf⟩
    · rw [eq_of_mem_ramPut h.distinct hnew.key_ne_zero hslot (hkey.trans hnew.key.symm), hnew.val,
        hval]
    · have hold := (mem_ramPut hslot).resolve_left fun heq => hkey (heq ▸ hnew.key)
      rw [hav]
      exact h.current slot hold hne a ha (haf hforce)
  · intro k x hx hclear
    rw [hram]
    rw [hcalls] at hx
    rcases lastFor_recordCall hx with ⟨rfl, -⟩ | ⟨-, a, ha, hac, -, -⟩
    · exact Or.inl ⟨_, mem_ramPut_self room, hnew.key⟩
    · obtain ⟨-, hakey⟩ := mem_of_lastFor ha
      exact held_ramPut (hakey ▸ cacheFnv1a_ne_zero _ _) hnew.key_ne_zero
        (h.held k a ha (hac ▸ hclear))
  · simp [hquiet]

theorem LatestHeld.full {s t : SharedState} {p : Nat} {role prompt val : CString}
    (h : LatestHeld s) (full : freeOrMatch (cacheFnv1a role prompt) s.st.ram = false)
    (ht : Tracked t) (hst : t.st = s.st)
    (hcalls : t.calls = recordCall p ⟨role, prompt, val⟩ true s.calls) (hquiet : t.quiet = false) :
    LatestHeld t := by
  have hfull : ∀ slot ∈ s.st.ram.toList, slot.key ≠ cacheFnv1a role prompt ∧ slot.key ≠ 0 := by
    simpa [freeOrMatch] using full
  refine ⟨ht, ?_, ?_, ?_⟩
  · intro slot hslot hne x hx hforce
    rw [hst] at hslot
    rw [hcalls] at hx hforce
    rcases lastFor_recordCall hx with ⟨hkey, -⟩ | ⟨-, a, ha, -, hav, haf⟩
    · exact absurd hkey (hfull slot hslot).1
    · rw [hav]
      exact h.current slot hslot hne a ha (haf hforce)
  · intro k x _ _
    rw [hst]
    exact Or.inr fun slot hslot => (hfull slot hslot).2
  · simp [hquiet]

theorem LatestHeld.append {s t : SharedState} {p : Nat} {rec : CacheSlot} (h : LatestHeld s)
    (here : s.procs[p]? = some (.append rec)) (ht : Tracked t) (hram : t.st.ram = s.st.ram)
    (hcalls : t.calls = s.calls.map (finish p)) (hquiet : t.quiet = s.quiet) : LatestHeld t := by
  have hclosed : ∀ c, (finish p c).closed = false → c.closed = false := fun c hc =>
    (closed_finish p c).symm.trans hc
  refine ⟨ht, ?_, ?_, ?_⟩
  · intro slot hslot hne x hx hforce
    rw [hcalls] at hx hforce
    obtain ⟨a, ha, -, hav, haf⟩ := lastFor_marked (entry_finish p) (cleared_finish p) hclosed hx
    rw [hav]
    exact h.current slot (hram ▸ hslot) hne a ha (haf hforce)
  · intro k x hx hclear
    rw [hcalls] at hx
    obtain ⟨a, ha, hac, -⟩ := lastFor_marked (entry_finish p) (cleared_finish p) hclosed hx
    rw [hram]
    exact h.held k a ha (hac ▸ hclear)
  · -- a store that is about to append has not returned, so nothing is quiet
    intro hq
    obtain ⟨c, hc, -, hdone⟩ := h.running p rec here
    have := (h.emptied (hquiet ▸ hq)).2.2 c hc
    simp [this] at hdone

theorem LatestHeld.clear {s t : SharedState} (h : LatestHeld s) (ht : Tracked t)
    (hst : t.st = cacheClear 0 s.st) (hcalls : t.calls = s.calls.map markCleared)
    (hquiet : t.quiet = s.quiet) : LatestHeld t := by
  have hzero : ∀ slot ∈ t.st.ram.toList, slot.key = 0 := hst ▸ keys_cacheClear
  have hmarked : ∀ c ∈ t.calls, ∃ a ∈ s.calls, c.cleared = true ∧ c.done = a.done := by
    intro c hc
    rw [hcalls] at hc
    obtain ⟨a, ha, rfl⟩ := List.mem_map.mp hc
    exact ⟨a, ha, rfl, rfl⟩
  refine ⟨ht, fun slot hslot hne => absurd (hzero slot hslot) hne, ?_, ?_⟩
  · intro k x hx hclear
    obtain ⟨-, -, hxclear, -⟩ := hmarked x (mem_of_lastFor hx).1
    simp [hxclear] at hclear
  · intro hq
    obtain ⟨-, hdisk, hdone⟩ := h.emptied (hquiet ▸ hq)
    have hrecs : diskRecords t.st.disk = diskRecords s.st.disk := by simp [hst, cacheClear]
    refine ⟨hzero, hrecs.trans hdisk, fun c hc => ?_⟩
    obtain ⟨a, ha, -, hca⟩ := hmarked c hc
    exact hca.trans (hdone a ha)

theorem LatestHeld.truncate {s t : SharedState} {p : Nat} (h : LatestHeld s) (ht : Tracked t)
    (hram : t.st.ram = s.st.ram) (hdisk : t.st.disk = cacheDiskTruncate s.st.disk)
    (hcalls : t.calls = s.calls) (hquiet : t.quiet = s.calls.all SetCall.done)
    (hcond : Undisturbed s (.truncate p) t) : LatestHeld t := by
  refine ⟨ht, ?_, ?_, ?_⟩
  · simpa [hram, hcalls] using h.current
  · simpa [hram, hcalls] using h.held
  · intro hq
    have hdone : ∀ c ∈ s.calls, c.done = true := by simpa [hquiet] using hq
    refine ⟨hram ▸ hcond hdone, ?_, hcalls ▸ hdone⟩
    rw [hdisk]
    cases s.st.disk <;> simp [cacheDiskTruncate, diskRecords]

theorem LatestHeld.step {s t : SharedState} {l : Section} (h : LatestHeld s) (hrun : Runs s l t)
    (hcond : Undisturbed s l t) : LatestHeld t := by
  have ht := h.toTracked.step hrun
  cases hrun with
  | hit idle found => exact h
  | miss idle miss => exact h.of_eq ht rfl rfl rfl
  | diskHit here found => exact h.of_eq ht rfl rfl rfl
  | diskMiss here miss => exact h.of_eq ht rfl rfl rfl
  | promote here => exact h.promote here ht rfl rfl rfl hcond
  | stored idle room => exact h.stored room ht rfl rfl rfl
  | full idle full => exact h.full full ht rfl rfl rfl
  | append here => exact h.append here ht rfl rfl rfl
  | clear idle => exact h.clear ht rfl rfl rfl
  | truncate here => exact h.truncate ht rfl rfl rfl rfl hcond

/-! ## Runs -/

/-- In every run of any number of processes whose sections disturb no other call, completed stores
and clears keep their promise throughout. -/
theorem upToDate_of_undisturbed {n : Nat} {ls : List Section}
    (h : Along sharedNext Undisturbed (.init n) ls) : Along sharedNext UpToDate (.init n) ls := by
  refine h.of_invariant LatestHeld ?_ (LatestHeld.init n)
  intro s l t hs hstep hcond
  have hrun := runs_of_sharedNext hstep
  have ht := hs.step hrun hcond
  exact ⟨⟨ht.notOutdated, hs.quietMiss hrun⟩, ht⟩

/-- Two stores and a lookup by a second process, which clears RAM inside the first store. -/
def undisturbedRun : List Section :=
  let p := CString.lit "p"
  [.update 0 .zero p (.lit "list files") (.lit "A"), .clear 1 0, .append 0 (fun _ => true),
    .lookup 1 p (.lit "list files"), .scan 1,
    .update 0 .zero p (.lit "disk usage") (.lit "B"), .promote 1, .append 0 (fun _ => true)]

theorem undisturbedRun_upToDate :
    (exec sharedNext (.init 2) undisturbedRun).isSome = true ∧
      Along sharedNext UpToDate (.init 2) undisturbedRun :=
  ⟨by decide +kernel, upToDate_of_undisturbed (by decide +kernel)⟩

/-- A store of a new version runs between the scan of a lookup and its promotion. -/
def storeInsideLookup : List Section :=
  let p := CString.lit "p"
  [.update 0 .zero p (.lit "list files") (.lit "A"), .append 0 (fun _ => true),
    .clear 0 0,
    .lookup 1 p (.lit "list files"), .scan 1,
    .update 0 .zero p (.lit "list files") (.lit "B"), .append 0 (fun _ => true),
    .promote 1]

/-- RAM then holds the version before, although the store of the new one has returned. -/
theorem outdated_version_promoted :
    ¬ ∀ (n : Nat) (ls : List Section), Along sharedNext UpToDate (.init n) ls := by
  intro h
  have hold : Along sharedNext (fun _ _ t => NotOutdated t) (.init 2) storeInsideLookup :=
    (h 2 storeInsideLookup).mono fun _ _ _ hud => hud.1
  exact absurd hold (by decide +kernel)

end LiberalOS.Cache
