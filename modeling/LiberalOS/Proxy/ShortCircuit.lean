import LiberalOS.Cache.Syscalls
import LiberalOS.Proxy.Client

/-!
# The cache short-circuit against the plain path

`proxy_call` run sequentially against a host that answers each (role, prompt) with one line, over a
lossless console. With one buffer size for all calls, collision-free keys and no paraphrases under
one role, a call returns what it would return without the cache.

The invariant is that an entry of the log holds the reply to its pair, cut to the common buffer
size, and that only replies short enough for every further truncation on the way are entered.

## Main results

* `proxyCall_agrees_with_plain` — the agreement, for every call of every run.
-/
namespace LiberalOS.Proxy
open Foundation Kernel Cache

/-! ## The two paths -/

/-- The host, by the reply it gives to a pair. -/
abbrev Host := CString → CString → CString

/-- One call: the caller's pid and arguments, and what the environment contributes (blocks for the
append, stack contents under the kernel's locals). -/
structure Call where
  pid : Nat
  pid_lt : pid < 2147483648
  role : CString
  prompt : CString
  out : List UInt8
  bmap : Nat → Bool
  junk : CacheSlot
  stack : List.Vector UInt8 cacheVallen

structure CallResult where
  ret : Int
  out : List UInt8
  deriving DecidableEq

def strlen (bs : List UInt8) : Int := (cstr bs).length

/-- `proxy_send` and `proxy_recv` under the lock; `none` when `proxy_recv` never returns. -/
def plainCall (h : Host) (outmax : Int) (c : Call) (out : List UInt8) : Option CallResult :=
  if outmax ≤ 0 then some ⟨-1, out⟩
  else
    (recvBytes c.pid [] (responseLine (decimal c.pid) (h c.role c.prompt).bytes)).map fun r =>
      let w := storePayload out r.1 outmax
      ⟨w.1, w.2⟩

/-- `proxy_call`: the result, and the cache with its log. -/
def proxyCall (h : Host) (outmax : Int) (s : LogState) (c : Call) :
    Option (CallResult × LogState) :=
  let g := cachegetVal c.stack s c.role c.prompt c.out outmax
  if g.1 ≠ 0 then some (⟨strlen g.2.1, g.2.1⟩, g.2.2)
  else
    (plainCall h outmax c g.2.1).map fun r =>
      if r.ret ≥ 0 then
        (r, (cachesetVal c.bmap c.junk g.2.2 c.role c.prompt (.ofBytes r.out)).2)
      else (r, g.2.2)

/-! ## Runs -/

inductive CallOp where
  | call (c : Call)
  | cacheclear (a0 : Nat)

/-- The state after an operation; a call that never returns leaves the cache alone. -/
def callNext (h : Host) (outmax : Int) (s : LogState) : CallOp → Option LogState
  | .call c => some (((proxyCall h outmax s c).map Prod.snd).getD s)
  | .cacheclear a0 => some (cacheStep s (.clear (argint a0)))

def CallOp.pair : CallOp → Option (CString × CString)
  | .call c => some (c.role, c.prompt)
  | .cacheclear _ => none

/-- The limits on the arguments of a call. -/
def CallOp.WithinLimits : CallOp → Prop
  | .call c => c.role.length ≤ 15 ∧ c.prompt.length ≤ 255
  | .cacheclear _ => True

instance : ∀ op : CallOp, Decidable op.WithinLimits
  | .call c => inferInstanceAs (Decidable (c.role.length ≤ 15 ∧ c.prompt.length ≤ 255))
  | .cacheclear _ => isTrue trivial

/-- Distinct prompts of one role agree in fewer than 7 signature positions. -/
def NoParaphrase (pairs : List (CString × CString)) : Prop :=
  ∀ a ∈ pairs, ∀ b ∈ pairs, a.1 = b.1 → a.2 ≠ b.2 → sigMatch (cacheSig a.2) (cacheSig b.2) < 7

instance (pairs : List (CString × CString)) : Decidable (NoParaphrase pairs) :=
  inferInstanceAs (Decidable (∀ a ∈ pairs, ∀ b ∈ pairs, _ → _ → _))

/-- The call returns, with the length and the string of the plain path. -/
def AgreesWithPlain (h : Host) (outmax : Int) (s : LogState) : CallOp → LogState → Prop
  | .call c, _ => ∃ r s' r', proxyCall h outmax s c = some (r, s') ∧
      plainCall h outmax c c.out = some r' ∧ r.ret = r'.ret ∧ cstr r.out = cstr r'.out
  | .cacheclear _, _ => True

/-! ## The plain path -/

/-- The text a plain call delivers. -/
def plainText (h : Host) (outmax : Int) (c : Call) : List UInt8 :=
  ((h c.role c.prompt).bytes.take (500 - (decimal c.pid).length)).take (outmax - 1).toNat

theorem plainCall_eq {h : Host} {outmax : Int} (hmax : 1 ≤ outmax)
    (hline : ∀ r p, newline ∉ (h r p).bytes) (c : Call) (out : List UInt8) :
    ∃ out', plainCall h outmax c out = some ⟨(plainText h outmax c).length, out'⟩ ∧
      cstr out' = plainText h outmax c := by
  have hrecv := recvBytes_responseLine c.pid_lt (hline c.role c.prompt) []
  rw [List.append_nil] at hrecv
  refine ⟨plainText h outmax c ++ 0 :: out.drop ((plainText h outmax c).length + 1), ?_, ?_⟩
  · rw [plainCall, if_neg (by omega), hrecv]
    rfl
  · refine cstr_append_zero (fun hmem => ?_) _
    exact (h c.role c.prompt).nul_free (List.mem_of_mem_take (List.mem_of_mem_take hmem))

/-- A cut behind byte 191 does not show in a text of at most 191 bytes. -/
theorem take_take_of_short {bs : List UInt8} {m n : Nat} (hm : 191 < m)
    (h : ((bs.take m).take n).length ≤ 191 ∨ (bs.take n).length ≤ 191) :
    (bs.take m).take n = bs.take n := by
  rw [List.take_take]
  by_cases hnm : n ≤ m
  · rw [Nat.min_eq_left hnm]
  · rw [List.take_take] at h
    simp only [List.length_take] at h
    have hlen : bs.length ≤ 191 := by omega
    rw [List.take_of_length_le (by omega), List.take_of_length_le (by omega)]

/-- What the cache may hold for a call's pair: the reply cut to the common buffer size, if it is
short enough for the argument of `cacheset`. -/
theorem plainText_of_short {h : Host} {outmax : Int} {c : Call}
    (hshort : (plainText h outmax c).length ≤ 191 ∨
      ((h c.role c.prompt).bytes.take (outmax - 1).toNat).length ≤ 191) :
    plainText h outmax c = (h c.role c.prompt).bytes.take (outmax - 1).toNat := by
  have := length_decimal_le c.pid
  exact take_take_of_short (by omega) hshort

/-! ## The invariant -/

/-- The log holds short replies to pairs of the run. -/
structure CachedReplies (h : Host) (outmax : Int) (pairs : List (CString × CString))
    (s : LogState) : Prop extends Provenance s where
  pair_mem : ∀ e ∈ s.log, (e.role, e.prompt) ∈ pairs
  role_length : ∀ e ∈ s.log, e.role.length ≤ 15
  reply : ∀ e ∈ s.log, e.val.bytes = (h e.role e.prompt).bytes.take (outmax - 1).toNat
  short : ∀ e ∈ s.log, e.val.bytes.length ≤ 191

variable {h : Host} {outmax : Int} {pairs : List (CString × CString)} {s : LogState} {c : Call}

/-- Operations that add nothing to the log. -/
theorem CachedReplies.of_log {t : LogState} (hs : CachedReplies h outmax pairs s)
    (hp : Provenance t) (hlog : t.log = s.log) : CachedReplies h outmax pairs t :=
  ⟨hp, hlog ▸ hs.pair_mem, hlog ▸ hs.role_length, hlog ▸ hs.reply, hlog ▸ hs.short⟩

/-- A hit answers with the reply to the call's own pair. -/
theorem CachedReplies.hit_value (hs : CachedReplies h outmax pairs s) (hcoll : NoCollision pairs)
    (hsem : NoParaphrase pairs) (hpair : (c.role, c.prompt) ∈ pairs) (hlen : c.role.length ≤ 15)
    {rec : CacheSlot} (hhit : hitRecord s.st c.role c.prompt = some rec) :
    rec.valStr = plainText h outmax c ∧ rec.valStr.length ≤ 191 ∧
      rec.valStr.length ≤ (outmax - 1).toNat := by
  obtain ⟨e, he, hmade⟩ := hs.toProvenance.entry_of_hit hhit
  have hmem := hs.pair_mem e he
  -- the entry is one of the same pair, whichever tier the record comes from
  have hsamePair : e.role = c.role ∧ e.prompt = c.prompt := by
    have hexact : rec.key = cacheFnv1a c.role c.prompt → e.role = c.role ∧ e.prompt = c.prompt :=
      fun hkey => Prod.mk.inj (hcoll _ hmem _ hpair (hmade.key.symm.trans hkey))
    have hsemantic : sameRole c.role rec = true → sigOverThreshold
        (sigMatch (cacheSig c.prompt) rec.sig) = true → e.role = c.role ∧ e.prompt = c.prompt := by
      intro hr hover
      have hroles : e.role = c.role := by
        have hel := hs.role_length e he
        rw [hmade.sameRole_iff] at hr
        apply CString.ext
        simp only [CString.length] at hel hlen
        rwa [List.take_of_length_le hel, List.take_of_length_le (by omega)] at hr
      refine ⟨hroles, ?_⟩
      by_contra hne
      have hlt := hsem _ hpair _ hmem hroles.symm (Ne.symm hne)
      rw [sigOverThreshold_iff, hmade.sig] at hover
      simp only at hlt
      omega
    rw [hitRecord, Option.or_eq_some_iff, Option.or_eq_some_iff] at hhit
    rcases hhit with hram | ⟨-, hram | ⟨-, hdisk⟩⟩
    · exact hexact (mem_of_ramExact hram).2
    · rw [ramSemantic_eq] at hram
      exact hsemantic (mem_of_semanticMatch hram).2.2.1 (mem_of_semanticMatch hram).2.2.2
    · rw [cacheDiskScan_eq, Option.or_eq_some_iff] at hdisk
      rcases hdisk with hlast | ⟨-, hbest⟩
      · exact hexact (mem_of_lastFor hlast).2
      · exact hsemantic (mem_of_semanticMatch hbest).2.2.1 (mem_of_semanticMatch hbest).2.2.2
  have hshort := hs.short e he
  have hreply := hs.reply e he
  rw [hsamePair.1, hsamePair.2] at hreply
  have hval : rec.valStr = e.val.bytes := by
    rw [hmade.val, Entry.value, List.take_of_length_le hshort]
  rw [hval]
  refine ⟨?_, hshort, ?_⟩
  · rw [plainText_of_short (Or.inr (hreply ▸ hshort)), hreply]
  · rw [hreply]
    exact List.length_take_le _ _

/-- The string in the buffer after a hit. -/
theorem cstr_cachegetVal_hit {rec : CacheSlot} (hhit : hitRecord s.st c.role c.prompt = some rec)
    (hrole : c.role.length ≤ 15) (hprompt : c.prompt.length ≤ 255)
    (hlen : rec.valStr.length ≤ 191) (hcut : rec.valStr.length ≤ (outmax - 1).toNat)
    (hmax : 1 ≤ outmax) :
    (cachegetVal c.stack s c.role c.prompt c.out outmax).1 = 1 ∧
      cstr (cachegetVal c.stack s c.role c.prompt c.out outmax).2.1 = rec.valStr := by
  have hlim : c.role.length < 16 ∧ c.prompt.length < 256 := by omega
  have hpos : outmax > 0 := by omega
  have hstr : cstr (copyValue c.stack.toList 192 rec) = rec.valStr := by
    rw [cstr_copyValue (by decide) (by simp), List.take_of_length_le (by simpa using hlen)]
  have hbuf : (copyValue c.stack.toList 192 rec).length = 192 := by simp [copyValue]
  have hget := cacheGet_eq s.st c.role c.prompt c.stack.toList 192
  rw [hhit] at hget
  refine ⟨by simp [cachegetVal, hlim, hget], ?_⟩
  have hn : rec.valStr.length < (if outmax < 192 then outmax else 192).toNat := by
    split <;> omega
  have hcut' : ∀ rest, cstr ((copyValue c.stack.toList 192 rec).take
      (if outmax < 192 then outmax else 192).toNat ++ rest) = rec.valStr := by
    intro rest
    rw [cstr_take_append (hstr ▸ hn) (by rw [hstr, hbuf]; omega), hstr]
  simp [cachegetVal, hlim, hget, hpos, overwrite, hcut']

theorem CachedReplies.call (hs : CachedReplies h outmax pairs s) (hmax : 1 ≤ outmax)
    (hline : ∀ r p, newline ∉ (h r p).bytes) (hcoll : NoCollision pairs)
    (hsem : NoParaphrase pairs) (hpair : (c.role, c.prompt) ∈ pairs)
    (hlim : (CallOp.call c).WithinLimits) :
    AgreesWithPlain h outmax s (.call c) s ∧
      ∀ t, callNext h outmax s (.call c) = some t → CachedReplies h outmax pairs t := by
  obtain ⟨hrole, hprompt⟩ := hlim
  obtain ⟨out', hplain, hout'⟩ := plainCall_eq hmax hline c c.out
  have hget : CachedReplies h outmax pairs
      (cachegetVal c.stack s c.role c.prompt c.out outmax).2.2 :=
    hs.of_log (hs.toProvenance.cachegetVal ..) (cachegetVal_log ..)
  cases hhit : hitRecord s.st c.role c.prompt with
  | some rec =>
    obtain ⟨hval, hlen, hcut⟩ := hs.hit_value hcoll hsem hpair hrole hhit
    obtain ⟨hret, hstr⟩ := cstr_cachegetVal_hit hhit hrole hprompt hlen hcut hmax
    have hcall : proxyCall h outmax s c =
        some (⟨strlen (cachegetVal c.stack s c.role c.prompt c.out outmax).2.1,
          (cachegetVal c.stack s c.role c.prompt c.out outmax).2.1⟩,
          (cachegetVal c.stack s c.role c.prompt c.out outmax).2.2) := by
      simp only [proxyCall, hret]
      rfl
    refine ⟨⟨_, _, _, hcall, hplain, ?_, ?_⟩, fun t ht => ?_⟩
    · simp only [strlen]
      rw [hstr, hval]
    · rw [hstr, hval, hout']
    · obtain rfl := Option.some.inj ht
      rwa [hcall]
  | none =>
    have hmiss : (cachegetVal c.stack s c.role c.prompt c.out outmax).1 = 0 ∧
        (cachegetVal c.stack s c.role c.prompt c.out outmax).2.1 = c.out := by
      have hlim : c.role.length < 16 ∧ c.prompt.length < 256 := by omega
      have hg := cacheGet_eq s.st c.role c.prompt c.stack.toList 192
      rw [hhit] at hg
      simp [cachegetVal, hlim, hg]
    have hcall : proxyCall h outmax s c = some (⟨(plainText h outmax c).length, out'⟩,
        (cachesetVal c.bmap c.junk (cachegetVal c.stack s c.role c.prompt c.out outmax).2.2
          c.role c.prompt (.ofBytes out')).2) := by
      simp only [proxyCall, hmiss.1, hmiss.2, hplain]
      simp
    refine ⟨⟨_, _, _, hcall, hplain, rfl, rfl⟩, fun t ht => ?_⟩
    obtain rfl := Option.some.inj ht
    rw [hcall]
    -- the reply is entered only if it fits the argument of `cacheset`
    have hprov := hget.toProvenance.cachesetVal c.bmap c.junk c.role c.prompt (.ofBytes out')
    rcases cachesetVal_log c.bmap c.junk (cachegetVal c.stack s c.role c.prompt c.out outmax).2.2
      c.role c.prompt (.ofBytes out') with hlog | ⟨hfit, hlog⟩
    · exact hget.of_log hprov hlog
    · have hbytes : (CString.ofBytes out').bytes = plainText h outmax c := hout'
      rw [CString.length, hbytes] at hfit
      have hnew := plainText_of_short (Or.inl (Nat.le_of_lt_succ hfit))
      have hall : ∀ {P : Entry → Prop}, (∀ e ∈ s.log, P e) → P ⟨c.role, c.prompt, .ofBytes out'⟩ →
          ∀ e ∈ (cachesetVal c.bmap c.junk (cachegetVal c.stack s c.role c.prompt c.out outmax).2.2
            c.role c.prompt (.ofBytes out')).2.log, P e := by
        intro P hold hlast e he
        rw [hlog, cachegetVal_log] at he
        rcases List.mem_append.mp he with he | he
        · exact hold e he
        · exact List.mem_singleton.mp he ▸ hlast
      exact ⟨hprov, hall hs.pair_mem hpair, hall hs.role_length hrole,
        hall hs.reply (hbytes.trans hnew), hall hs.short (hbytes ▸ Nat.le_of_lt_succ hfit)⟩

/-- In every sequential run with one buffer size, within the limits on the arguments, without key
collisions and without paraphrases under one role, every call returns the length and the string it
would return with the cache disabled. -/
theorem proxyCall_agrees_with_plain (h : Host) (outmax : Int) (ops : List CallOp)
    (hmax : 1 ≤ outmax) (hline : ∀ r p, newline ∉ (h r p).bytes)
    (hlim : ∀ op ∈ ops, op.WithinLimits)
    (hcoll : NoCollision (ops.filterMap CallOp.pair))
    (hsem : NoParaphrase (ops.filterMap CallOp.pair)) :
    Along (callNext h outmax) (AgreesWithPlain h outmax) .init ops := by
  have hinit : CachedReplies h outmax (ops.filterMap CallOp.pair) .init :=
    ⟨.init, by simp [LogState.init], by simp [LogState.init], by simp [LogState.init],
      by simp [LogState.init]⟩
  refine Along.of_invariant_mem (CachedReplies h outmax (ops.filterMap CallOp.pair)) ?_ hinit
    (along_true _ _)
  intro s op t hop hs hstep _
  cases op with
  | call c =>
    have hpair : (c.role, c.prompt) ∈ ops.filterMap CallOp.pair :=
      List.mem_filterMap.mpr ⟨_, hop, rfl⟩
    obtain ⟨hagree, hnext⟩ := hs.call hmax hline hcoll hsem hpair (hlim _ hop)
    exact ⟨hagree, hnext t hstep⟩
  | cacheclear a0 =>
    obtain rfl := Option.some.inj hstep
    exact ⟨trivial, hs.of_log (hs.toProvenance.step _) rfl⟩

/-- The echo of the mock handler, as a single line. -/
def echoHost : Host := fun _ prompt => .ofBytes (prompt.bytes.filter (· != newline))

/-- A call by process 4 with a buffer of 256 bytes. -/
def callAs (role prompt : String) : CallOp :=
  .call ⟨4, by decide, .lit role, .lit prompt, List.replicate 256 0, fun _ => true, .zero,
    .replicate _ 0⟩

/-- A miss, an exact hit, a hit in the overlay after a clear, and a miss under another role. -/
theorem echoHost_agrees_with_plain :
    Along (callNext echoHost 256) (AgreesWithPlain echoHost 256) .init
      [callAs "parser" "list files", callAs "parser" "list files", .cacheclear 0,
        callAs "parser" "list files", callAs "classifier" "list files"] := by
  refine proxyCall_agrees_with_plain echoHost 256 _ (by decide) (fun r p hmem => ?_)
    (by decide +kernel) (by decide +kernel) (by decide +kernel)
  have := List.mem_filter.mp (List.takeWhile_sublist _ |>.subset hmem)
  simp at this

end LiberalOS.Proxy
