import LiberalOS.Cache.Concurrent

/-!
# Which writer RAM and disk remember

A store updates RAM and appends to the overlay in two critical sections. The last RAM update of a
key and its last append belong to different processes if a store appends after one that overtook it
in RAM has already done so. Without such an append, RAM and overlay end with the same value.

## Main results

* `agrees_of_appendsInOrder` — this is enough, for any number of processes and stores.
-/
namespace LiberalOS.Cache
open Foundation Kernel

/-! ## Statement -/

/-- The append a process is about to make succeeds. -/
def NextAppendOk (bmap : Nat → Bool) (disk : Option (List UInt8)) : Option Pending → Prop
  | some (.append rec) => AppendOk bmap rec disk
  | _ => True

/-- Only stores run. Each returns 1, and its append succeeds. -/
def StoresOnly (s : SharedState) : Section → SharedState → Prop
  | .update _ _ role prompt _, _ => freeOrMatch (cacheFnv1a role prompt) s.st.ram = true
  | .append p bmap, _ => NextAppendOk bmap s.st.disk s.procs[p]?
  | _, _ => False

/-- If the store that updated RAM last for the key has already appended, then the process appends
the same value. -/
def NextAppendInOrder (calls : List SetCall) : Option Pending → Prop
  | some (.append rec) =>
    ∀ x ∈ lastFor SetCall.key rec.key calls, x.done = true → x.value = rec.valStr
  | _ => True

/-- No append comes behind that of a store which updated RAM later with another value. -/
def AppendsInOrder (s : SharedState) : Section → SharedState → Prop
  | .append p _, _ => NextAppendInOrder s.calls s.procs[p]?
  | _, _ => True

instance (bmap : Nat → Bool) (disk : Option (List UInt8)) :
    ∀ q, Decidable (NextAppendOk bmap disk q)
  | some (.append rec) => inferInstanceAs (Decidable (AppendOk bmap rec disk))
  | none | some .idle | some (.scan ..) | some (.promote _) | some .truncate => isTrue trivial

instance : ∀ s l t, Decidable (StoresOnly s l t)
  | s, .update _ _ role prompt _, _ =>
    inferInstanceAs (Decidable (freeOrMatch (cacheFnv1a role prompt) s.st.ram = true))
  | s, .append p bmap, _ => inferInstanceAs (Decidable (NextAppendOk bmap s.st.disk s.procs[p]?))
  | _, .lookup .., _ | _, .scan _, _ | _, .promote _, _ | _, .clear .., _ | _, .truncate _, _ =>
    isFalse id

instance (calls : List SetCall) : ∀ q, Decidable (NextAppendInOrder calls q)
  | some (.append rec) => inferInstanceAs (Decidable (∀ x ∈ lastFor SetCall.key rec.key calls,
      x.done = true → x.value = rec.valStr))
  | none | some .idle | some (.scan ..) | some (.promote _) | some .truncate => isTrue trivial

instance : ∀ s l t, Decidable (AppendsInOrder s l t)
  | s, .append p _, _ => inferInstanceAs (Decidable (NextAppendInOrder s.calls s.procs[p]?))
  | _, .update .., _ | _, .lookup .., _ | _, .scan _, _ | _, .promote _, _ | _, .clear .., _
  | _, .truncate _, _ => isTrue trivial

/-- For every key, the RAM slot and the last overlay record carry the same value, or there is
neither. -/
def Agrees (st : CacheState) : Prop :=
  ∀ k, k ≠ 0 → (ramExact k st.ram).map CacheSlot.valStr =
    (lastFor CacheSlot.key k (diskRecords st.disk)).map CacheSlot.valStr

/-! ## The invariant -/

/-- RAM holds the latest store of each key. The overlay does once that store has returned. -/
structure WriterKept (s : SharedState) : Prop extends Tracked s where
  ram : ∀ k, k ≠ 0 → (ramExact k s.st.ram).map CacheSlot.valStr =
    (lastFor SetCall.key k s.calls).map SetCall.value
  disk : ∀ k, ∀ x ∈ lastFor SetCall.key k s.calls, x.done = true →
    (lastFor CacheSlot.key k (diskRecords s.st.disk)).map CacheSlot.valStr = some x.value
  fresh : ∀ k, lastFor SetCall.key k s.calls = none →
    lastFor CacheSlot.key k (diskRecords s.st.disk) = none

theorem WriterKept.init (n : Nat) : WriterKept (.init n) where
  toTracked := .init n
  ram := by
    intro k hk
    have hnone : ramExact k (SharedState.init n).st.ram = none :=
      (ramExact_eq_none_iff _ _).mpr fun rec hrec hkey => hk (hkey ▸ keys_replicate_zero rec hrec)
    rw [hnone]
    rfl
  disk := by simp [SharedState.init]
  fresh := by simp [SharedState.init, CacheState.empty, diskRecords]

/-- The exact loop after a put. -/
theorem ramExact_ramPut {t : RamTable} (h : DistinctKeys t) {rec : CacheSlot}
    (room : freeOrMatch rec.key t = true) {k : UInt64} (hk : k ≠ 0) :
    ramExact k (ramPut rec t) = if rec.key = k then some rec else ramExact k t := by
  split
  · next hkey => exact (ramExact_eq_some_iff h.ramPut hk).mpr ⟨mem_ramPut_self room, hkey⟩
  · next hkey =>
    apply Option.ext
    intro found
    rw [ramExact_eq_some_iff h.ramPut hk, ramExact_eq_some_iff h hk]
    constructor
    · rintro ⟨hmem, rfl⟩
      exact ⟨(mem_ramPut hmem).resolve_left fun heq => hkey (heq ▸ rfl), rfl⟩
    · rintro ⟨hmem, rfl⟩
      exact ⟨mem_ramPut_of_ne hmem hk (Ne.symm hkey), rfl⟩

theorem key_finish (p : Nat) (c : SetCall) : (finish p c).key = c.key :=
  congrArg Entry.key (entry_finish p c)

theorem value_finish (p : Nat) (c : SetCall) : (finish p c).value = c.value :=
  congrArg Entry.value (entry_finish p c)

theorem WriterKept.stored {s t : SharedState} {p : Nat} {junk : CacheSlot}
    {role prompt val : CString} (h : WriterKept s)
    (room : freeOrMatch (cacheFnv1a role prompt) s.st.ram = true) (ht : Tracked t)
    (hst : t.st = s.st.put (newSlot junk role prompt val))
    (hcalls : t.calls = recordCall p ⟨role, prompt, val⟩ false s.calls) : WriterKept t := by
  have hnew := newSlot_madeFrom junk role prompt val
  have hlast := lastFor_recordCall_eq s.calls p ⟨role, prompt, val⟩ false
  have hdisk : t.st.disk = s.st.disk := by rw [hst, CacheState.put]
  refine ⟨ht, ?_, ?_, ?_⟩
  · intro k hk
    rw [hst, CacheState.put, ramExact_ramPut h.distinct room hk, hcalls, hlast]
    by_cases hkey : (newSlot junk role prompt val).key = k
    · rw [if_pos hkey, if_pos (hnew.key.symm.trans hkey)]
      exact congrArg some hnew.val
    · rw [if_neg hkey, if_neg fun he => hkey (hnew.key.trans he), h.ram k hk, Option.map_map]
      rfl
  · intro k x hx hdone
    rw [hcalls, hlast] at hx
    split at hx
    · obtain rfl := Option.some.inj hx
      cases hdone
    · obtain ⟨a, ha, rfl⟩ := Option.map_eq_some_iff.mp hx
      rw [hdisk]
      exact h.disk k a ha hdone
  · intro k hnone
    rw [hcalls, hlast] at hnone
    split at hnone
    · cases hnone
    · rw [hdisk]
      exact h.fresh k (Option.map_eq_none_iff.mp hnone)

theorem WriterKept.append {s t : SharedState} {p : Nat} {bmap : Nat → Bool} {rec : CacheSlot}
    (h : WriterKept s) (here : s.procs[p]? = some (.append rec)) (ht : Tracked t)
    (hram : t.st.ram = s.st.ram) (hdisk : t.st.disk = cacheDiskAppend bmap rec s.st.disk)
    (hcalls : t.calls = s.calls.map (finish p)) (hok : AppendOk bmap rec s.st.disk)
    (horder : NextAppendInOrder s.calls (some (.append rec))) : WriterKept t := by
  obtain ⟨own, hown, hpid, hundone⟩ := h.running p rec here
  -- the only call of the process that has not returned is the one it is about to append
  have hmade : ∀ c ∈ s.calls, c.pid = p → c.done = false → MadeFrom rec c.entry := by
    intro c hc hcp hcd
    obtain ⟨rec', hrec', hmade⟩ := h.pending c hc hcd
    have hsame : rec = rec' := by simpa [hcp, here] using hrec'
    exact hsame ▸ hmade
  have hrecown := hmade own hown hpid hundone
  have hrecs : diskRecords t.st.disk = diskRecords s.st.disk ++ [rec.terminate] := by
    rw [hdisk]
    rcases diskRecords_cacheDiskAppend h.aligned bmap rec with ⟨-, hrecs⟩ | ⟨hno, -⟩
    · exact hrecs
    · exact absurd hok hno
  have hterm : rec.terminate.valStr = rec.valStr := by
    rw [hrecown.terminate.val, hrecown.val]
  have hlast : ∀ k,
      lastFor SetCall.key k t.calls = (lastFor SetCall.key k s.calls).map (finish p) :=
    fun k => by rw [hcalls, lastFor_map (key_finish p)]
  refine ⟨ht, ?_, ?_, ?_⟩
  · intro k hk
    rw [hram, hlast, Option.map_map, h.ram k hk]
    exact congrArg (Option.map · _) (funext fun c => (value_finish p c).symm)
  · intro k x hx hdone
    rw [hlast] at hx
    obtain ⟨a, ha, rfl⟩ := Option.map_eq_some_iff.mp hx
    obtain ⟨hamem, hakey⟩ := mem_of_lastFor ha
    rw [value_finish, hrecs, lastFor_append_singleton]
    split
    · next hkey =>
      -- the latest store of the key is this one, or it has returned and order is kept
      rw [Option.map_some, hterm]
      cases hadone : a.done with
      | true =>
        have hkey' : rec.key = k := hkey
        rw [horder a (hkey' ▸ ha) hadone]
      | false =>
        have hap := pid_of_done_finish hdone hadone
        exact congrArg some (hmade a hamem hap hadone).val
    · next hkey =>
      refine h.disk k a ha ?_
      by_contra hnot
      have hadone : a.done = false := by simpa using hnot
      have hap := pid_of_done_finish hdone hadone
      exact hkey ((hmade a hamem hap hadone).key.trans hakey)
  · intro k hnone
    rw [hlast, Option.map_eq_none_iff] at hnone
    rw [hrecs, lastFor_append_singleton, if_neg, h.fresh k hnone]
    intro hkey
    exact lastFor_eq_none_iff.mp hnone own hown (hrecown.key.symm.trans hkey)

theorem WriterKept.step {s t : SharedState} {l : Section} (h : WriterKept s) (hrun : Runs s l t)
    (hstores : StoresOnly s l t) (horder : AppendsInOrder s l t) : WriterKept t := by
  have ht := h.toTracked.step hrun
  cases hrun with
  | stored idle room => exact h.stored room ht rfl rfl
  | full idle full => exact absurd (hstores.symm.trans full) (by simp)
  | append here =>
    rw [StoresOnly, here] at hstores
    rw [AppendsInOrder, here] at horder
    exact h.append here ht rfl rfl rfl hstores horder
  | _ => exact hstores.elim

/-! ## Runs -/

/-- When any number of concurrent stores have returned 1 and appended, without an append behind
that of a store which overtook it in RAM, RAM and overlay agree on every key. -/
theorem agrees_of_appendsInOrder {n : Nat} {ls : List Section} {s : SharedState}
    (hrun : exec sharedNext (.init n) ls = some s)
    (hstores : Along sharedNext StoresOnly (.init n) ls)
    (horder : Along sharedNext AppendsInOrder (.init n) ls) (hdone : ∀ q ∈ s.procs, q = .idle) :
    Agrees s.st := by
  have hkept : WriterKept s := by
    refine exec_invariant_of_along ?_ (WriterKept.init n) hrun (hstores.and horder)
    intro u l v _ hu hv hcond
    exact hu.step (runs_of_sharedNext hv) hcond.1 hcond.2
  intro k hk
  rw [hkept.ram k hk]
  cases hlast : lastFor SetCall.key k s.calls with
  | none => rw [hkept.fresh k hlast]; rfl
  | some x =>
    have hxdone : x.done = true := by
      by_contra hnot
      obtain ⟨rec, hrec, -⟩ := hkept.pending x (mem_of_lastFor hlast).1 (by simpa using hnot)
      cases hdone _ (List.mem_of_getElem? hrec)
    exact (hkept.disk k x hlast hxdone).symm

/-- Three stores of one key, whose appends all come after the RAM updates. -/
def threeWriters (order : List Nat) : List Section :=
  let p := CString.lit "p"
  let prompt := CString.lit "list files"
  [.update 0 .zero p prompt (.lit "A"), .update 1 .zero p prompt (.lit "B"),
    .update 2 .zero p prompt (.lit "C")] ++ order.map fun q => .append q (fun _ => true)

/-- The state three writers end in. -/
def threeWritersEnd (order : List Nat) : SharedState :=
  (exec sharedNext (.init 3) (threeWriters order)).getD (.init 3)

theorem exec_threeWriters {order : List Nat}
    (h : (exec sharedNext (.init 3) (threeWriters order)).isSome = true) :
    exec sharedNext (.init 3) (threeWriters order) = some (threeWritersEnd order) := by
  obtain ⟨s, hs⟩ := Option.isSome_iff_exists.mp h
  rw [threeWritersEnd, hs, Option.getD_some]

/-- The first two may append in either order, as the last writer of RAM comes behind them. -/
theorem threeWriters_agrees : Agrees (threeWritersEnd [1, 0, 2]).st :=
  agrees_of_appendsInOrder (exec_threeWriters (by decide +kernel)) (by decide +kernel)
    (by decide +kernel) (by decide +kernel)

/-- Two stores append in the order opposite to their RAM updates, and RAM and overlay differ. -/
theorem append_behind_overtaker :
    ¬ ∀ (n : Nat) (ls : List Section) (s : SharedState),
      exec sharedNext (.init n) ls = some s → Along sharedNext StoresOnly (.init n) ls →
        (∀ q ∈ s.procs, q = .idle) → Agrees s.st := by
  intro h
  have hagree := h 3 (threeWriters [0, 2, 1]) (threeWritersEnd [0, 2, 1])
    (exec_threeWriters (by decide +kernel)) (by decide +kernel) (by decide +kernel)
    (cacheFnv1a (.lit "p") (.lit "list files")) (cacheFnv1a_ne_zero _ _)
  exact absurd hagree (by decide +kernel)

end LiberalOS.Cache
