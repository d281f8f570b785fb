import LiberalOS.Cache.Misses
import LiberalOS.Proxy.System

/-!
# Replies of failed handlers in the cache

When the handler raises, the daemon still answers, with `__HANDLER_ERROR__` as the text, so that
the guest does not wait for ever. For `proxy_call` this is a reply like any other and it goes into
the cache, where it answers the pair and its paraphrases from then on.

## Main results

* `errors_not_cached_of_noRoom` — in runs where the table has no slot for such a text whenever one
  is to be stored, none is stored and a pair whose handler raised is asked for again.
-/
namespace LiberalOS.Proxy
open Foundation Kernel Cache

/-! ## Statement -/

/-- If the process is at a `cacheset` of a received text that will return 1, the call and the text
satisfy `P`. -/
def IfStored (P : CallArgs → Received → Prop) (env : CacheEnv) (cache : LogState) : Pc → Prop
  | .cacheset c _ r =>
    (cachesetVal env.bmap env.junk cache c.role c.prompt (.ofBytes r.out)).1 = 1 → P c r
  | _ => True

/-- What the step stores satisfies `P`. -/
def OnStore (P : CallArgs → Received → Prop) (s : ProxyState) : ProxyOp → Prop
  | .agent pid env => IfStored P env s.cache (s.pc pid)
  | _ => True

instance {P : CallArgs → Received → Prop} [∀ c r, Decidable (P c r)] (env : CacheEnv)
    (cache : LogState) : ∀ pc : Pc, Decidable (IfStored P env cache pc)
  | .cacheset c _ r => inferInstanceAs (Decidable ((cachesetVal env.bmap env.junk cache c.role
      c.prompt (.ofBytes r.out)).1 = 1 → P c r))
  | .returned .. | .cacheget _ | .proxylock _ | .send _ | .recv .. | .unlock .. => isTrue trivial

instance {P : CallArgs → Received → Prop} [∀ c r, Decidable (P c r)] (s : ProxyState) :
    ∀ op : ProxyOp, Decidable (OnStore P s op)
  | .agent pid env => inferInstanceAs (Decidable (IfStored P env s.cache (s.pc pid)))
  | .call .. | .host _ | .cacheclear _ | .reboot => isTrue trivial

/-- No text is stored that answers a request whose handler raised. -/
def ErrorNotStored (s : ProxyState) (op : ProxyOp) (_ : ProxyState) : Prop :=
  OnStore (fun _ r => r.reply.result ≠ none) s op

/-- No text of a handler that returned is stored under an entry that matches the pair. -/
def NoSuccess (role prompt : CString) (s : ProxyState) (op : ProxyOp) (_ : ProxyState) : Prop :=
  OnStore (fun c r => r.reply.result ≠ none →
    ¬ Entry.Matches ⟨c.role, c.prompt, .ofBytes r.out⟩ role prompt) s op

instance (s : ProxyState) (op : ProxyOp) (t : ProxyState) : Decidable (ErrorNotStored s op t) :=
  inferInstanceAs (Decidable (OnStore _ s op))

instance (role prompt : CString) (s : ProxyState) (op : ProxyOp) (t : ProxyState) :
    Decidable (NoSuccess role prompt s op t) := inferInstanceAs (Decidable (OnStore _ s op))

/-- The handler is called with the pair, and raises. -/
def Raises (s : ProxyState) (op : ProxyOp) (role prompt : CString) : Prop :=
  op = .host none ∧ ∃ req rest id, s.toHost = (newline, req) :: rest ∧
    parseRequest s.hostLine = some ⟨id, role.bytes, prompt.bytes⟩

/-- The step is the `cacheget` of a call. -/
def LooksUp (s : ProxyState) (op : ProxyOp) (pid : Nat) (c : CallArgs) : Prop :=
  (∃ env, op = .agent pid env) ∧ s.pc pid = .cacheget c

/-- If the handler raises for a pair that a call missed, and no success for a matching entry is
stored meanwhile, a later call with the pair goes on to send its request. -/
def AsksAgain (ops : List ProxyOp) : Prop :=
  ∀ pre op₁ mid op₂ post s s₁ u v, ops = pre ++ op₁ :: (mid ++ op₂ :: post) →
    exec proxyNext .init pre = some s → proxyNext s op₁ = some s₁ →
    exec proxyNext s₁ mid = some u → proxyNext u op₂ = some v →
    ∀ pid₁ c₁ pid₂ c₂, LooksUp s op₁ pid₁ c₁ → s₁.pc pid₁ = .proxylock c₁ →
      (∃ a op b w, mid = a ++ op :: b ∧ exec proxyNext s₁ a = some w ∧
        Raises w op c₁.role c₁.prompt) →
      Along proxyNext (NoSuccess c₁.role c₁.prompt) s₁ mid →
      LooksUp u op₂ pid₂ c₂ → c₂.role = c₁.role → c₂.prompt = c₁.prompt →
      v.pc pid₂ = .proxylock c₂

/-- If the process is at the `cacheset` of the text of a failed handler, the table is full of other
keys. -/
def NoRoomIfError (ram : RamTable) : Pc → Prop
  | .cacheset c _ r => r.reply.result = none → freeOrMatch (cacheFnv1a c.role c.prompt) ram = false
  | _ => True

/-- The table has no slot for the text of a failed handler whenever one is to be stored. -/
def NoRoomForErrors (s : ProxyState) : ProxyOp → ProxyState → Prop
  | .agent pid _, _ => NoRoomIfError s.cache.st.ram (s.pc pid)
  | _, _ => True

instance (ram : RamTable) : ∀ pc : Pc, Decidable (NoRoomIfError ram pc)
  | .cacheset c _ r => inferInstanceAs (Decidable (r.reply.result = none →
      freeOrMatch (cacheFnv1a c.role c.prompt) ram = false))
  | .returned .. | .cacheget _ | .proxylock _ | .send _ | .recv .. | .unlock .. => isTrue trivial

instance (s : ProxyState) : ∀ (op : ProxyOp) (t : ProxyState), Decidable (NoRoomForErrors s op t)
  | .agent pid _, _ => inferInstanceAs (Decidable (NoRoomIfError s.cache.st.ram (s.pc pid)))
  | .call .., _ | .host _, _ | .cacheclear _, _ | .reboot, _ => isTrue trivial

/-! ## The cache under the steps of the system -/

variable {s t : ProxyState} {op : ProxyOp} {role prompt : CString}

/-- A step leaves the cache alone or is one operation on it, and a store is that of a received
text. -/
theorem cache_of_proxyNext (h : proxyNext s op = some t) : t.cache = s.cache ∨
    ∃ cop, t.cache = cacheStep s.cache cop ∧ ∀ bmap junk r p v, cop = .set bmap junk r p v →
      ∃ c got, (∀ P, OnStore P s op → P c got) ∧ r = c.role ∧ p = c.prompt ∧
        v = .ofBytes got.out := by
  cases op with
  | call pid c =>
    simp only [proxyNext] at h
    split at h
    · split at h
      · exact Or.inl (Option.some.inj h ▸ rfl)
      · cases h
    · cases h
  | host result =>
    simp only [proxyNext, hostByte] at h
    split at h
    · cases h
    · split at h
      · exact Or.inl (Option.some.inj h ▸ rfl)
      · split at h <;> exact Or.inl (Option.some.inj h ▸ rfl)
  | cacheclear a0 =>
    obtain rfl := Option.some.inj h
    exact Or.inr ⟨.clear (argint a0), rfl, fun _ _ _ _ _ heq => nomatch heq⟩
  | reboot =>
    obtain rfl := Option.some.inj h
    exact Or.inr ⟨.reboot, rfl, fun _ _ _ _ _ heq => nomatch heq⟩
  | agent pid env =>
    simp only [proxyNext, agentStep] at h
    split at h
    · cases h
    · next c hpc =>
      obtain rfl := Option.some.inj h
      rcases cachegetStep_cache env s pid c with heq | heq
      · exact Or.inl heq
      · exact Or.inr ⟨_, heq, fun _ _ _ _ _ hset => nomatch hset⟩
    · split at h
      · exact Or.inl (Option.some.inj h ▸ rfl)
      · cases h
    · next c hpc =>
      refine Or.inl (Option.some.inj h ▸ ?_)
      unfold sendStep
      split <;> rfl
    · next c req line hpc =>
      unfold recvStep at h
      split at h
      · exact Or.inl (Option.some.inj h ▸ rfl)
      · split at h
        · cases h
        · split at h <;> exact Or.inl (Option.some.inj h ▸ rfl)
    · split at h <;> exact Or.inl (Option.some.inj h ▸ rfl)
    · next c req r hpc =>
      obtain rfl := Option.some.inj h
      rcases cachesetVal_cases env.bmap env.junk s.cache c.role c.prompt (.ofBytes r.out) with
        ⟨hret, -, heq⟩ | ⟨-, heq⟩
      · refine Or.inr ⟨_, heq, fun bmap junk r' p v hset => ?_⟩
        obtain ⟨-, -, rfl, rfl, rfl⟩ := CacheOp.set.inj hset
        refine ⟨c, r, fun P hP => ?_, rfl, rfl, rfl⟩
        rw [OnStore, hpc] at hP
        exact hP hret
      · exact Or.inl heq

theorem provenance_of_proxyNext (h : Provenance s.cache) (hstep : proxyNext s op = some t) :
    Provenance t.cache := by
  rcases cache_of_proxyNext hstep with heq | ⟨cop, heq, -⟩ <;> rw [heq]
  · exact h
  · exact h.step cop

/-- A pair without an answer stays so while neither an error nor a matching success is stored. -/
theorem miss_of_proxyNext (hprov : Provenance s.cache)
    (hmiss : hitRecord s.cache.st role prompt = none) (hstep : proxyNext s op = some t)
    (herr : ErrorNotStored s op t) (hno : NoSuccess role prompt s op t) :
    hitRecord t.cache.st role prompt = none := by
  rcases cache_of_proxyNext hstep with heq | ⟨cop, heq, hset⟩ <;> rw [heq]
  · exact hmiss
  · refine miss_step hprov hmiss cop fun bmap junk r p v hcop _ => ?_
    obtain ⟨c, got, hon, rfl, rfl, rfl⟩ := hset bmap junk r p v hcop
    exact hon _ hno (hon _ herr)

/-! ## Runs -/

theorem NoRoomForErrors.errorNotStored (h : NoRoomForErrors s op t) : ErrorNotStored s op t := by
  cases op with
  | agent pid env =>
    simp only [NoRoomForErrors] at h
    simp only [ErrorNotStored, OnStore]
    cases hpc : s.pc pid with
    | cacheset c req r =>
      rw [hpc] at h
      intro hret hraised
      rcases cachesetVal_cases env.bmap env.junk s.cache c.role c.prompt (.ofBytes r.out) with
        ⟨-, hfree, -⟩ | ⟨hne, -⟩
      · rw [h hraised] at hfree
        cases hfree
      · exact hne hret
    | _ => trivial
  | _ => trivial

/-- The agreement between two lookups of one pair, over the run between them. -/
theorem lookup_again {mid : List ProxyOp} {u : ProxyState} (hprov : Provenance s.cache)
    (hmiss : hitRecord s.cache.st role prompt = none) (hmid : exec proxyNext s mid = some u)
    (herr : Along proxyNext ErrorNotStored s mid)
    (hno : Along proxyNext (NoSuccess role prompt) s mid) :
    hitRecord u.cache.st role prompt = none := by
  have hboth := herr.and hno
  have hinv : Provenance u.cache ∧ hitRecord u.cache.st role prompt = none := by
    refine exec_invariant_of_along (I := fun u => Provenance u.cache ∧
      hitRecord u.cache.st role prompt = none) ?_ ⟨hprov, hmiss⟩ hmid hboth
    rintro s op t - ⟨hp, hm⟩ hstep ⟨he, hn⟩
    exact ⟨provenance_of_proxyNext hp hstep, miss_of_proxyNext hp hm hstep he hn⟩
  exact hinv.2

/-- In every run in which the table has no slot for the text of a failed handler whenever one is to
be stored, no such text is stored, and a call with a pair whose handler raised sends its request
again, if no success for a matching entry was stored since the first lookup. -/
theorem errors_not_cached_of_noRoom (ops : List ProxyOp)
    (hcond : Along proxyNext NoRoomForErrors .init ops) :
    Along proxyNext ErrorNotStored .init ops ∧ AsksAgain ops := by
  have herr : Along proxyNext ErrorNotStored .init ops :=
    hcond.mono fun _ _ _ h => h.errorNotStored
  refine ⟨herr, ?_⟩
  rintro pre op₁ mid op₂ post s s₁ u v rfl hpre hstep₁ hmid hstep₂ pid₁ c₁ pid₂ c₂
    ⟨⟨env₁, rfl⟩, hpc₁⟩ hmissed - hno ⟨⟨env₂, rfl⟩, hpc₂⟩ hrole hprompt
  have hprov : Provenance s.cache := by
    refine exec_invariant (I := fun s => Provenance s.cache) ?_ Provenance.init hpre
    exact fun s op t h hstep => provenance_of_proxyNext h hstep
  -- both lookups are steps of the run, so the first one can be counted in
  have hmid' : exec proxyNext s (.agent pid₁ env₁ :: mid) = some u := by simp [hstep₁, hmid]
  have herr' : Along proxyNext ErrorNotStored s (.agent pid₁ env₁ :: mid) := by
    have hrest := (along_append.mp herr).2 s hpre
    rw [← List.cons_append] at hrest
    exact (along_append.mp hrest).1
  have hno' : Along proxyNext (NoSuccess c₁.role c₁.prompt) s (.agent pid₁ env₁ :: mid) := by
    intro t ht
    obtain rfl := Option.some.inj (hstep₁.symm.trans ht)
    exact ⟨by simp [NoSuccess, OnStore, hpc₁, IfStored], hno⟩
  simp only [proxyNext, agentStep, hpc₁] at hstep₁
  simp only [proxyNext, agentStep, hpc₂] at hstep₂
  obtain rfl := Option.some.inj hstep₁
  obtain rfl := Option.some.inj hstep₂
  obtain ⟨hrlen, hplen, hmiss⟩ := cachegetStep_pc_iff.mp hmissed
  have hagain := lookup_again hprov hmiss hmid' herr' hno'
  refine cachegetStep_pc_iff.mpr ?_
  rw [hrole, hprompt]
  exact ⟨hrlen, hplen, hagain⟩

/-- A call of process 1 under one of 64 roles, which is answered and stored. The disk is full. -/
def storedCall (k : Nat) : List ProxyOp :=
  let role : CString := .ofBytes [112 + UInt8.ofNat (k / 8), 97 + UInt8.ofNat (k % 8)]
  let run : ProxyOp := .agent 1 ⟨fun _ => false, .zero, .replicate _ 0⟩
  .call 1 ⟨role, .lit "p", [0, 0], 2, false, false, false, true⟩ :: List.replicate 3 run ++
    List.replicate 17 (replies "A") ++ List.replicate 16 run

/-- The table is filled. -/
def fillTable : List ProxyOp := (List.range cacheNslot).flatMap storedCall

/-- The lookup of process 1. -/
def firstLookup : List ProxyOp := [.call 1 (callArgs "p" 32)] ++ [runs 1]

/-- Process 1 sends its request, and the daemon reads it up to its newline. -/
def untilRaise : List ProxyOp := [runs 1, runs 1] ++ List.replicate 15 (.host none)

/-- The handler raises, process 1 ends its call, and process 2 enters one with the same pair. -/
def fromRaise : List ProxyOp :=
  .host none :: (List.replicate 32 (runs 1) ++ [.call 2 (callArgs "p" 32)])

/-- With a full table process 1 cannot store the text it has received, and process 2 asks again. -/
theorem fillTable_asksAgain :
    Along proxyNext ErrorNotStored .init
        (fillTable ++ (firstLookup ++ (untilRaise ++ fromRaise)) ++ [runs 2]) ∧
      AsksAgain (fillTable ++ (firstLookup ++ (untilRaise ++ fromRaise)) ++ [runs 2]) :=
  errors_not_cached_of_noRoom _ (by decide +kernel)

/-- The text of the failed handler is stored, and answers process 2. -/
theorem error_reply_cached :
    (¬ ∀ ops : List ProxyOp, Along proxyNext ErrorNotStored .init ops) ∧
      ¬ ∀ ops : List ProxyOp, AsksAgain ops := by
  constructor
  · intro h
    have hno : ¬ Along proxyNext ErrorNotStored .init
        (firstLookup ++ (untilRaise ++ fromRaise)) := by decide +kernel
    exact hno (h _)
  · intro h
    have hpc₁ : (exec proxyNext .init [.call 1 (callArgs "p" 32)]).map (·.pc 1) =
        some (.cacheget (callArgs "p" 32)) := by decide +kernel
    have hmissed : (exec proxyNext .init firstLookup).map (·.pc 1) =
        some (.proxylock (callArgs "p" 32)) := by decide +kernel
    have hraise : (exec proxyNext .init (firstLookup ++ untilRaise)).map
        (fun w => (w.toHost, parseRequest w.hostLine)) = some ([(newline, some 0)],
          some ⟨decimal 1, (CString.lit "r").bytes, (CString.lit "p").bytes⟩) := by decide +kernel
    have hpc₂ : (exec proxyNext .init (firstLookup ++ (untilRaise ++ fromRaise))).map (·.pc 2) =
        some (.cacheget (callArgs "p" 32)) := by decide +kernel
    have hlast : (exec proxyNext .init ((firstLookup ++ (untilRaise ++ fromRaise)) ++
        [runs 2])).map (·.pc 2) = some (.returned 17 (handlerError ++ List.replicate 15 0)) := by
      decide +kernel
    have hno : Along proxyNext (NoSuccess (.lit "r") (.lit "p")) .init
        (firstLookup ++ (untilRaise ++ fromRaise)) := by decide +kernel
    obtain ⟨s, hs, hpc₁⟩ := Option.map_eq_some_iff.mp hpc₁
    obtain ⟨s₁, hs₁, hmissed⟩ := Option.map_eq_some_iff.mp hmissed
    obtain ⟨w, hw, hraise⟩ := Option.map_eq_some_iff.mp hraise
    obtain ⟨u, hu, hpc₂⟩ := Option.map_eq_some_iff.mp hpc₂
    obtain ⟨v, hv, hlast⟩ := Option.map_eq_some_iff.mp hlast
    have hno₁ := (along_append.mp hno).2 s₁ hs₁
    rw [exec_append, hu, Option.bind_some, exec_singleton] at hv
    rw [exec_append, hs₁, Option.bind_some] at hu hw
    have hstep₁ : proxyNext s (runs 1) = some s₁ := by
      rwa [firstLookup, exec_append, hs, Option.bind_some, exec_singleton] at hs₁
    obtain ⟨htohost, hparse⟩ := Prod.mk.inj hraise
    have hraised : ∃ a op b w, untilRaise ++ fromRaise = a ++ op :: b ∧
        exec proxyNext s₁ a = some w ∧
        Raises w op (callArgs "p" 32).role (callArgs "p" 32).prompt :=
      ⟨untilRaise, .host none, _, w, rfl, hw, rfl, some 0, [], _, htohost, hparse⟩
    have hsent := h ([.call 1 (callArgs "p" 32)] ++ runs 1 ::
      ((untilRaise ++ fromRaise) ++ runs 2 :: [])) _ _ _ _ _ s s₁ u v rfl hs hstep₁ hu hv
      1 _ 2 _ ⟨⟨_, rfl⟩, hpc₁⟩ hmissed hraised hno₁ ⟨⟨_, rfl⟩, hpc₂⟩ rfl rfl
    exact absurd (hlast.symm.trans hsent) (by simp)

end LiberalOS.Proxy
