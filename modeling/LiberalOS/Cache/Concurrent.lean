import LiberalOS.Cache.Durability

/-!
# Concurrent cache calls

Any number of processes call the cache of `kernel/cache.c` at the same time. The critical sections
under `cache.lock` and under the inode lock are the atomic steps: a lookup is RAM lookup, scan and
promotion, a store is RAM update and append, a clear is RAM clear and truncation. Between two
sections of a call, any section of another process may run.

Beside the cache, the state carries the history of stores in the order of their RAM updates, which
no section reads.

## Main definitions

* `sharedNext` — one critical section of one process.

## Main results

* `Tracked.of_exec` — the history accounts for every process that is about to append.
* `lookup_alone`, `store_alone`, `clear_alone` — calls that are not interleaved are the sequential
  operations.
-/
namespace LiberalOS.Cache
open Foundation Kernel

/-! ## The model -/

/-- The section a process enters next, with the locals of the call that it still uses. -/
inductive Pending where
  | idle
  | scan (role prompt : CString)
  | promote (rec : CacheSlot)
  | append (rec : CacheSlot)
  | truncate
  deriving DecidableEq

/-- A call of `cache_set` that has updated RAM or found it full. It has returned (`done`), a clear
has started since its RAM update (`cleared`), or a clear or a store of the same key has started
since it returned (`closed`). -/
structure SetCall where
  pid : Nat
  entry : Entry
  done : Bool
  cleared : Bool
  closed : Bool
  deriving DecidableEq

def SetCall.key (c : SetCall) : UInt64 := c.entry.key

def SetCall.value (c : SetCall) : List UInt8 := c.entry.value

/-- `quiet` holds when a `cache_clear(1)` has returned and no `cache_set` has been running since. -/
structure SharedState where
  st : CacheState
  procs : List Pending
  calls : List SetCall
  quiet : Bool

/-- `n` processes and the empty cache. -/
def SharedState.init (n : Nat) : SharedState := ⟨.empty, List.replicate n .idle, [], false⟩

/-- A critical section of process `p`, with the environment's part in it. -/
inductive Section where
  | lookup (p : Nat) (role prompt : CString)
  | scan (p : Nat)
  | promote (p : Nat)
  | update (p : Nat) (junk : CacheSlot) (role prompt val : CString)
  | append (p : Nat) (bmap : Nat → Bool)
  | clear (p : Nat) (disk : Int)
  | truncate (p : Nat)

/-- Process `p` goes on to `next`. -/
def SharedState.goto (s : SharedState) (p : Nat) (next : Pending) : SharedState :=
  { s with procs := s.procs.set p next }

/-- The call of process `p` has returned. -/
def finish (p : Nat) (c : SetCall) : SetCall := if c.pid = p then { c with done := true } else c

/-- A store of the key has started. -/
def close (k : UInt64) (c : SetCall) : SetCall :=
  { c with closed := c.closed || (c.done && c.key == k) }

/-- A clear has started. -/
def markCleared (c : SetCall) : SetCall := { c with cleared := true, closed := c.closed || c.done }

/-- The history when process `p` has updated RAM (`done = false`) or found it full. -/
def recordCall (p : Nat) (e : Entry) (done : Bool) (calls : List SetCall) : List SetCall :=
  calls.map (close e.key) ++ [⟨p, e, done, false, false⟩]

@[simp] theorem entry_finish (p : Nat) (c : SetCall) : (finish p c).entry = c.entry := by
  unfold finish
  split <;> rfl

@[simp] theorem cleared_finish (p : Nat) (c : SetCall) : (finish p c).cleared = c.cleared := by
  unfold finish
  split <;> rfl

@[simp] theorem closed_finish (p : Nat) (c : SetCall) : (finish p c).closed = c.closed := by
  unfold finish
  split <;> rfl

/-- A call returns when its process does. -/
theorem pid_of_done_finish {p : Nat} {c : SetCall} (hdone : (finish p c).done = true)
    (hc : c.done = false) : c.pid = p := by
  by_contra hne
  rw [finish, if_neg hne, hc] at hdone
  cases hdone

/-- The latest store of a key when another one starts. -/
theorem lastFor_recordCall_eq (calls : List SetCall) (p : Nat) (e : Entry) (done : Bool)
    (k : UInt64) : lastFor SetCall.key k (recordCall p e done calls) =
      if e.key = k then some ⟨p, e, done, false, false⟩
      else (lastFor SetCall.key k calls).map (close e.key) := by
  rw [recordCall, lastFor_append_singleton, lastFor_map (f := close e.key) fun _ => rfl]
  rfl

/-- The RAM table with `ram_put` applied. -/
def CacheState.put (rec : CacheSlot) (st : CacheState) : CacheState :=
  { st with ram := ramPut rec st.ram }

def sharedNext (s : SharedState) : Section → Option SharedState
  | .lookup p role prompt =>
    match s.procs[p]? with
    | some .idle => some (if RamMiss role prompt s.st.ram then s.goto p (.scan role prompt) else s)
    | _ => none
  | .scan p =>
    match s.procs[p]? with
    | some (.scan role prompt) =>
      match cacheDiskScan role (cacheFnv1a role prompt) (cacheSig prompt) s.st.disk with
      | some promo => some (s.goto p (.promote promo))
      | none => some (s.goto p .idle)
    | _ => none
  | .promote p =>
    match s.procs[p]? with
    | some (.promote rec) => some { s.goto p .idle with st := s.st.put rec }
    | _ => none
  | .update p junk role prompt val =>
    match s.procs[p]? with
    | some .idle =>
      let new := newSlot junk role prompt val
      if freeOrMatch new.key s.st.ram then
        some ⟨s.st.put new, s.procs.set p (.append new),
          recordCall p ⟨role, prompt, val⟩ false s.calls, false⟩
      else
        some { s with calls := recordCall p ⟨role, prompt, val⟩ true s.calls, quiet := false }
    | _ => none
  | .append p bmap =>
    match s.procs[p]? with
    | some (.append rec) =>
      some { s.goto p .idle with
        st := { s.st with disk := cacheDiskAppend bmap rec s.st.disk }
        calls := s.calls.map (finish p) }
    | _ => none
  | .clear p disk =>
    match s.procs[p]? with
    | some .idle =>
      some { s.goto p (if disk ≠ 0 then .truncate else .idle) with
        st := cacheClear 0 s.st
        calls := s.calls.map markCleared }
    | _ => none
  | .truncate p =>
    match s.procs[p]? with
    | some .truncate =>
      some { s.goto p .idle with
        st := { s.st with disk := cacheDiskTruncate s.st.disk }
        quiet := s.calls.all SetCall.done }
    | _ => none

/-! ## What a section does -/

/-- The transitions, one constructor for each way through a critical section. -/
inductive Runs : SharedState → Section → SharedState → Prop
  | hit {s p role prompt} (idle : s.procs[p]? = some .idle)
      (found : ¬ RamMiss role prompt s.st.ram) : Runs s (.lookup p role prompt) s
  | miss {s p role prompt} (idle : s.procs[p]? = some .idle)
      (miss : RamMiss role prompt s.st.ram) :
      Runs s (.lookup p role prompt) (s.goto p (.scan role prompt))
  | diskHit {s p role prompt promo} (here : s.procs[p]? = some (.scan role prompt))
      (found : cacheDiskScan role (cacheFnv1a role prompt) (cacheSig prompt) s.st.disk =
        some promo) : Runs s (.scan p) (s.goto p (.promote promo))
  | diskMiss {s p role prompt} (here : s.procs[p]? = some (.scan role prompt))
      (miss : cacheDiskScan role (cacheFnv1a role prompt) (cacheSig prompt) s.st.disk = none) :
      Runs s (.scan p) (s.goto p .idle)
  | promote {s p rec} (here : s.procs[p]? = some (.promote rec)) :
      Runs s (.promote p) { s.goto p .idle with st := s.st.put rec }
  | stored {s p junk role prompt val} (idle : s.procs[p]? = some .idle)
      (room : freeOrMatch (cacheFnv1a role prompt) s.st.ram = true) :
      Runs s (.update p junk role prompt val)
        ⟨s.st.put (newSlot junk role prompt val),
          s.procs.set p (.append (newSlot junk role prompt val)),
          recordCall p ⟨role, prompt, val⟩ false s.calls, false⟩
  | full {s p junk role prompt val} (idle : s.procs[p]? = some .idle)
      (full : freeOrMatch (cacheFnv1a role prompt) s.st.ram = false) :
      Runs s (.update p junk role prompt val)
        { s with calls := recordCall p ⟨role, prompt, val⟩ true s.calls, quiet := false }
  | append {s p rec bmap} (here : s.procs[p]? = some (.append rec)) :
      Runs s (.append p bmap) { s.goto p .idle with
        st := { s.st with disk := cacheDiskAppend bmap rec s.st.disk }
        calls := s.calls.map (finish p) }
  | clear {s p disk} (idle : s.procs[p]? = some .idle) :
      Runs s (.clear p disk) { s.goto p (if disk ≠ 0 then .truncate else .idle) with
        st := cacheClear 0 s.st
        calls := s.calls.map markCleared }
  | truncate {s p} (here : s.procs[p]? = some .truncate) :
      Runs s (.truncate p) { s.goto p .idle with
        st := { s.st with disk := cacheDiskTruncate s.st.disk }
        quiet := s.calls.all SetCall.done }

theorem runs_of_sharedNext {s t : SharedState} {l : Section} (h : sharedNext s l = some t) :
    Runs s l t := by
  cases l with
  | lookup p role prompt =>
    simp only [sharedNext] at h
    split at h
    · next hidle =>
      by_cases hmiss : RamMiss role prompt s.st.ram
      · obtain rfl : s.goto p (.scan role prompt) = t := by simpa [hmiss] using h
        exact .miss hidle hmiss
      · obtain rfl : s = t := by simpa [hmiss] using h
        exact .hit hidle hmiss
    · cases h
  | scan p =>
    simp only [sharedNext] at h
    split at h
    · next role prompt hat =>
      split at h
      · next promo hfound => exact Option.some.inj h ▸ .diskHit hat hfound
      · next hmiss => exact Option.some.inj h ▸ .diskMiss hat hmiss
    · cases h
  | promote p =>
    simp only [sharedNext] at h
    split at h
    · next rec hat => exact Option.some.inj h ▸ .promote hat
    · cases h
  | update p junk role prompt val =>
    simp only [sharedNext] at h
    split at h
    · next hidle =>
      split at h
      · next hroom => exact Option.some.inj h ▸ .stored hidle hroom
      · next hfull => exact Option.some.inj h ▸ .full hidle (Bool.eq_false_iff.mpr hfull)
    · cases h
  | append p bmap =>
    simp only [sharedNext] at h
    split at h
    · next rec hat => exact Option.some.inj h ▸ .append hat
    · cases h
  | clear p disk =>
    simp only [sharedNext] at h
    split at h
    · next hidle => exact Option.some.inj h ▸ .clear hidle
    · cases h
  | truncate p =>
    simp only [sharedNext] at h
    split at h
    · next hat => exact Option.some.inj h ▸ .truncate hat
    · cases h

theorem Runs.sharedNext {s t : SharedState} {l : Section} (h : Runs s l t) :
    sharedNext s l = some t := by
  cases h with
  | hit idle found => simp [Cache.sharedNext, idle, found]
  | miss idle miss => simp [Cache.sharedNext, idle, miss]
  | diskHit here found => simp [Cache.sharedNext, here, found]
  | diskMiss here miss => simp [Cache.sharedNext, here, miss]
  | promote here => simp [Cache.sharedNext, here]
  | @stored p junk role prompt val idle room =>
    have hroom : freeOrMatch (newSlot junk role prompt val).key s.st.ram = true := room
    simp [Cache.sharedNext, idle, hroom]
  | @full p junk role prompt val idle full =>
    have hfull : freeOrMatch (newSlot junk role prompt val).key s.st.ram = false := full
    simp [Cache.sharedNext, idle, hfull]
  | append here => simp [Cache.sharedNext, here]
  | clear idle => simp [Cache.sharedNext, idle]
  | truncate here => simp [Cache.sharedNext, here]

/-! ## Calls that run alone -/

theorem set_here {procs : List Pending} {p : Nat} {q : Pending} (h : procs[p]? = some q) :
    procs.set p q = procs := by
  obtain ⟨hp, rfl⟩ := List.getElem?_eq_some_iff.mp h
  exact List.set_getElem_self hp

theorem set_idle {procs : List Pending} {p : Nat} (h : procs[p]? = some .idle) (next : Pending) :
    (procs.set p next).set p .idle = procs := by
  rw [List.set_set, set_here h]

theorem getElem?_set_here {procs : List Pending} {p : Nat} {q : Pending}
    (h : procs[p]? = some q) (next : Pending) : (procs.set p next)[p]? = some next := by
  obtain ⟨hp, -⟩ := List.getElem?_eq_some_iff.mp h
  rw [List.getElem?_set_self hp]

/-- The sections of an undisturbed lookup are those of `cacheGet`. -/
theorem lookup_alone {s : SharedState} {p : Nat} (idle : s.procs[p]? = some .idle)
    (role prompt : CString) (out : List UInt8) (outmax : Int) :
    ∃ rest ∈ [[], [.scan p], [.scan p, .promote p]],
      exec sharedNext s (.lookup p role prompt :: rest) =
        some { s with st := (cacheGet s.st role prompt out outmax).st } := by
  have hscan := getElem?_set_here idle (.scan role prompt)
  rw [cacheGet_eq]
  by_cases hmiss : RamMiss role prompt s.st.ram
  · have hhit : hitRecord s.st role prompt =
        cacheDiskScan role (cacheFnv1a role prompt) (cacheSig prompt) s.st.disk := by
      rw [hitRecord, hmiss.1, hmiss.2]
      rfl
    cases hdisk : cacheDiskScan role (cacheFnv1a role prompt) (cacheSig prompt) s.st.disk with
    | none =>
      refine ⟨[.scan p], by simp, ?_⟩
      simp [sharedNext, idle, hmiss, SharedState.goto, hscan, hdisk, set_idle idle, ramAfterGet,
        hhit]
    | some promo =>
      refine ⟨[.scan p, .promote p], by simp, ?_⟩
      have hpromote := getElem?_set_here idle (.promote promo)
      simp [sharedNext, idle, hmiss, SharedState.goto, hscan, hdisk, hpromote, set_idle idle,
        ramAfterGet, hhit, CacheState.put]
  · refine ⟨[], by simp, ?_⟩
    have hram : ramAfterGet s.st role prompt = s.st.ram := by
      unfold ramAfterGet
      split <;> simp [hmiss]
    simp [sharedNext, idle, hmiss, hram]

theorem store_alone {s : SharedState} {p : Nat} (idle : s.procs[p]? = some .idle)
    (bmap : Nat → Bool) (junk : CacheSlot) (role prompt val : CString) :
    ∃ rest ∈ [[], [.append p bmap]], ∃ t,
      exec sharedNext s (.update p junk role prompt val :: rest) = some t ∧
        t.st = (cacheSet bmap junk s.st role prompt val).2 ∧ t.procs = s.procs := by
  cases hfree : freeOrMatch (newSlot junk role prompt val).key s.st.ram with
  | false =>
    have hupdate : Runs s (.update p junk role prompt val) _ := .full idle hfree
    exact ⟨[], by simp, _, (exec_singleton _ _).trans hupdate.sharedNext,
      by simp [cacheSet, hfree], rfl⟩
  | true =>
    have hupdate : Runs s (.update p junk role prompt val) _ := .stored idle hfree
    refine ⟨[.append p bmap], by simp, _,
      exec_pair hupdate.sharedNext (Runs.append (getElem?_set_here idle _)).sharedNext, ?_⟩
    exact ⟨by simp [cacheSet, hfree, CacheState.put], set_idle idle _⟩

theorem clear_alone {s : SharedState} {p : Nat} (idle : s.procs[p]? = some .idle) (disk : Int) :
    ∃ rest ∈ [[], [.truncate p]], ∃ t, exec sharedNext s (.clear p disk :: rest) = some t ∧
      t.st = cacheClear disk s.st ∧ t.procs = s.procs := by
  have hclear : Runs s (.clear p disk) _ := .clear idle
  by_cases hdisk : disk = 0
  · refine ⟨[], by simp, _, (exec_singleton _ _).trans hclear.sharedNext, by simp [hdisk], ?_⟩
    simpa [SharedState.goto, hdisk] using set_here idle
  · rw [if_pos hdisk] at hclear
    refine ⟨[.truncate p], by simp, _,
      exec_pair hclear.sharedNext (Runs.truncate (getElem?_set_here idle _)).sharedNext, ?_⟩
    exact ⟨by simp [cacheClear, hdisk], set_idle idle _⟩

/-! ## The history and the processes -/

/-- The processes about to append are those with a call that has not returned. -/
structure CallsMatch (procs : List Pending) (calls : List SetCall) : Prop where
  running : ∀ (p : Nat) rec, procs[p]? = some (.append rec) →
    ∃ c ∈ calls, c.pid = p ∧ c.done = false
  pending : ∀ c ∈ calls, c.done = false →
    ∃ rec, procs[c.pid]? = some (.append rec) ∧ MadeFrom rec c.entry

theorem getElem?_set_cases {procs : List Pending} {p j : Nat} {next q : Pending}
    (h : (procs.set p next)[j]? = some q) : (j = p ∧ q = next) ∨ (j ≠ p ∧ procs[j]? = some q) := by
  rw [List.getElem?_set] at h
  split at h
  · next hp =>
    split at h
    · exact Or.inl ⟨hp.symm, (Option.some.inj h).symm⟩
    · cases h
  · next hp => exact Or.inr ⟨Ne.symm hp, h⟩

variable {procs : List Pending} {calls : List SetCall}

theorem CallsMatch.pid_ne (h : CallsMatch procs calls) {p : Nat} {q : Pending}
    (here : procs[p]? = some q) (hq : ∀ rec, q ≠ .append rec) {c : SetCall} (hc : c ∈ calls)
    (hdone : c.done = false) : c.pid ≠ p := by
  rintro rfl
  obtain ⟨rec, hrec, -⟩ := h.pending c hc hdone
  exact hq rec (Option.some.inj (here.symm.trans hrec))

/-- A process that is not about to append moves elsewhere. -/
theorem CallsMatch.goto (h : CallsMatch procs calls) {p : Nat} {q next : Pending}
    (here : procs[p]? = some q) (hq : ∀ rec, q ≠ .append rec) (hnext : ∀ rec, next ≠ .append rec) :
    CallsMatch (procs.set p next) calls where
  running := by
    intro j rec hj
    rcases getElem?_set_cases hj with ⟨-, heq⟩ | ⟨-, hj⟩
    · exact absurd heq.symm (hnext rec)
    · exact h.running j rec hj
  pending := by
    intro c hc hdone
    rw [List.getElem?_set_ne (h.pid_ne here hq hc hdone).symm]
    exact h.pending c hc hdone

/-- Marks that leave caller, entry and return alone do not matter. -/
theorem CallsMatch.map (h : CallsMatch procs calls) {f : SetCall → SetCall}
    (hpid : ∀ c, (f c).pid = c.pid) (hentry : ∀ c, (f c).entry = c.entry)
    (hdone : ∀ c, (f c).done = c.done) : CallsMatch procs (calls.map f) where
  running := by
    intro p rec hp
    obtain ⟨c, hc, hcp, hcd⟩ := h.running p rec hp
    exact ⟨f c, List.mem_map_of_mem hc, (hpid c).trans hcp, (hdone c).trans hcd⟩
  pending := by
    intro c hc hcd
    obtain ⟨a, ha, rfl⟩ := List.mem_map.mp hc
    rw [hpid, hentry]
    exact h.pending a ha ((hdone a).symm.trans hcd)

/-- A process starts a call and is about to append its record. -/
theorem CallsMatch.start (h : CallsMatch procs calls) {p : Nat} {new : CacheSlot} {e : Entry}
    (idle : procs[p]? = some .idle) (hnew : MadeFrom new e) :
    CallsMatch (procs.set p (.append new)) (calls ++ [⟨p, e, false, false, false⟩]) where
  running := by
    intro j rec hj
    rcases getElem?_set_cases hj with ⟨rfl, -⟩ | ⟨-, hj⟩
    · exact ⟨⟨j, e, false, false, false⟩, by simp, rfl, rfl⟩
    · obtain ⟨c, hc, hcj⟩ := h.running j rec hj
      exact ⟨c, by simp [hc], hcj⟩
  pending := by
    intro c hc hdone
    rcases List.mem_append.mp hc with hc | hc
    · rw [List.getElem?_set_ne (h.pid_ne idle (by simp) hc hdone).symm]
      exact h.pending c hc hdone
    · obtain rfl := List.mem_singleton.mp hc
      exact ⟨new, getElem?_set_here idle _, hnew⟩

/-- A call that found the table full has returned at once. -/
theorem CallsMatch.full (h : CallsMatch procs calls) (p : Nat) (e : Entry) :
    CallsMatch procs (calls ++ [⟨p, e, true, false, false⟩]) where
  running := by
    intro j rec hj
    obtain ⟨c, hc, hcj⟩ := h.running j rec hj
    exact ⟨c, by simp [hc], hcj⟩
  pending := by
    intro c hc hdone
    rcases List.mem_append.mp hc with hc | hc
    · exact h.pending c hc hdone
    · obtain rfl := List.mem_singleton.mp hc
      simp at hdone

/-- The append of a process ends its call. -/
theorem CallsMatch.finish (h : CallsMatch procs calls) (p : Nat) :
    CallsMatch (procs.set p .idle) (calls.map (finish p)) where
  running := by
    intro j rec hj
    rcases getElem?_set_cases hj with ⟨-, heq⟩ | ⟨hjp, hj⟩
    · cases heq
    · obtain ⟨c, hc, rfl, hdone⟩ := h.running j rec hj
      exact ⟨c, List.mem_map.mpr ⟨c, hc, by simp [Cache.finish, hjp]⟩, rfl, hdone⟩
  pending := by
    intro c hc hdone
    obtain ⟨a, ha, rfl⟩ := List.mem_map.mp hc
    by_cases hp : a.pid = p
    · simp [Cache.finish, hp] at hdone
    · simp only [Cache.finish, if_neg hp] at hdone ⊢
      rw [List.getElem?_set_ne (Ne.symm hp)]
      exact h.pending a ha hdone

/-- What holds in every reachable state, whatever the interleaving. -/
structure Tracked (s : SharedState) : Prop extends CallsMatch s.procs s.calls where
  distinct : DistinctKeys s.st.ram
  aligned : ∀ file, s.st.disk = some file → 344 ∣ file.length
  diskKeys : ∀ rec ∈ diskRecords s.st.disk, rec.key ≠ 0
  promoted : ∀ (p : Nat) rec, s.procs[p]? = some (.promote rec) → rec.key ≠ 0

theorem Tracked.init (n : Nat) : Tracked (.init n) where
  running := by
    intro p rec hp
    have := List.eq_of_mem_replicate (List.mem_of_getElem? hp)
    cases this
  pending := by simp [SharedState.init]
  distinct := Provenance.init.distinct
  aligned := Provenance.init.aligned
  diskKeys := by simp [SharedState.init, CacheState.empty, diskRecords]
  promoted := by
    intro p rec hp
    have := List.eq_of_mem_replicate (List.mem_of_getElem? hp)
    cases this

theorem Tracked.step {s t : SharedState} {l : Section} (h : Tracked s) (hrun : Runs s l t) :
    Tracked t := by
  -- a process that is not set to promote leaves the other pending promotions as they are
  have hmoved : ∀ p next, (∀ rec, next = .promote rec → rec.key ≠ 0) → ∀ (j : Nat) rec,
      (s.procs.set p next)[j]? = some (.promote rec) → rec.key ≠ 0 := by
    intro p next hnext j rec hj
    rcases getElem?_set_cases hj with ⟨-, heq⟩ | ⟨-, hj⟩
    · exact hnext rec heq.symm
    · exact h.promoted j rec hj
  cases hrun with
  | hit idle found => exact h
  | miss idle miss =>
    exact ⟨h.toCallsMatch.goto idle (by simp) (by simp), h.distinct, h.aligned, h.diskKeys,
      hmoved _ _ (by simp)⟩
  | @diskHit p role prompt promo here found =>
    refine ⟨h.toCallsMatch.goto here (by simp) (by simp), h.distinct, h.aligned, h.diskKeys,
      hmoved _ _ ?_⟩
    rintro rec ⟨⟩
    exact h.diskKeys promo (mem_of_cacheDiskScan found)
  | diskMiss here miss =>
    exact ⟨h.toCallsMatch.goto here (by simp) (by simp), h.distinct, h.aligned, h.diskKeys,
      hmoved _ _ (by simp)⟩
  | promote here =>
    exact ⟨h.toCallsMatch.goto here (by simp) (by simp), h.distinct.ramPut, h.aligned, h.diskKeys,
      hmoved _ _ (by simp)⟩
  | @stored p junk role prompt val idle room =>
    have hnew := newSlot_madeFrom junk role prompt val
    refine ⟨CallsMatch.start (h.toCallsMatch.map ?_ ?_ ?_) idle hnew, h.distinct.ramPut, h.aligned,
      h.diskKeys, hmoved _ _ (by simp)⟩ <;> exact fun _ => rfl
  | @full p junk role prompt val idle full =>
    refine ⟨CallsMatch.full (h.toCallsMatch.map ?_ ?_ ?_) p _, h.distinct, h.aligned, h.diskKeys,
      h.promoted⟩ <;> exact fun _ => rfl
  | @append p rec bmap here =>
    refine ⟨h.toCallsMatch.finish p, h.distinct, aligned_cacheDiskAppend h.aligned bmap rec, ?_,
      hmoved _ _ (by simp)⟩
    intro r hr
    obtain ⟨c, hc, hpid, hdone⟩ := h.running p rec here
    obtain ⟨rec', hrec', hmade⟩ := h.pending c hc hdone
    obtain rfl : rec = rec' := by
      have := here.symm.trans (hpid ▸ hrec')
      simpa using this
    change r ∈ diskRecords (cacheDiskAppend bmap rec s.st.disk) at hr
    rcases diskRecords_cacheDiskAppend h.aligned bmap rec with ⟨-, hrecs⟩ | ⟨-, hrecs⟩ <;>
      rw [hrecs] at hr
    · rcases List.mem_append.mp hr with hr | hr
      · exact h.diskKeys r hr
      · obtain rfl := List.mem_singleton.mp hr
        exact hmade.terminate.key_ne_zero
    · exact h.diskKeys r hr
  | @clear p disk idle =>
    refine ⟨CallsMatch.map (h.toCallsMatch.goto idle (by simp) ?_) ?_ ?_ ?_,
      distinctKeys_of_zero keys_cacheClear, ?_, ?_, hmoved _ _ ?_⟩
    · intro rec
      split <;> simp
    · exact fun _ => rfl
    · exact fun _ => rfl
    · exact fun _ => rfl
    · simpa [cacheClear] using h.aligned
    · simpa [cacheClear] using h.diskKeys
    · intro rec
      split <;> simp
  | @truncate p here =>
    refine ⟨h.toCallsMatch.goto here (by simp) (by simp), h.distinct, ?_, ?_, hmoved _ _ (by simp)⟩
    · intro file hfile
      cases hdisk : s.st.disk with
      | none => simp [hdisk, cacheDiskTruncate] at hfile
      | some old =>
        obtain rfl : [] = file := by simpa [hdisk, cacheDiskTruncate] using hfile
        exact dvd_zero _
    · cases hdisk : s.st.disk <;> simp [cacheDiskTruncate, diskRecords]

theorem Tracked.of_exec {n : Nat} {ls : List Section} {s : SharedState}
    (h : exec sharedNext (.init n) ls = some s) : Tracked s :=
  exec_invariant (fun _ _ _ hs ht => hs.step (runs_of_sharedNext ht)) (Tracked.init n) h

end LiberalOS.Cache
