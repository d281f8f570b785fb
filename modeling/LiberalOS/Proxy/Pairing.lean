import LiberalOS.Foundation.Execution
import LiberalOS.Proxy.System

/-!
# Requests and replies are paired

`proxy_send` and `proxy_recv` run under one lock, so at most one request is on the way and the
next bytes on the console are its reply. `proxy_recv` however checks `out` and `outmax` only after
the request is sent. If they are bad it returns at once, the lock is released with the reply still
to come, and the next call of that process takes the old reply for its own.

## Main results

* `paired_of_missesUsable` — in runs where every call that misses has usable arguments,
  each of them returns the reply to its own request.
-/
namespace LiberalOS.Proxy
open Foundation Kernel Cache

/-! ## Statement -/

/-- The call received the answer to its own request, for its own role and prompt, and stored the
text cut to the line buffer and to `out`. -/
structure OwnReply (pid : Nat) (c : CallArgs) (req : Option Nat) (r : Received) : Prop where
  req_eq : r.reply.req = req
  sent : req.isSome
  parsed : r.reply.parsed = ⟨decimal pid, c.role.bytes, c.prompt.bytes⟩
  stored : (r.ret, r.out) =
    storePayload c.out (r.reply.text.take (500 - (decimal pid).length)) c.outmax

/-- What a step of a process has to satisfy: it reads only bytes of the reply to its own request,
and a call that missed returns that reply. -/
def StepPaired (s : ProxyState) (pid : Nat) (t : ProxyState) : Prop :=
  match s.pc pid with
  | .recv _ req _ => ∀ b, s.toGuest = b :: t.toGuest → b.2.req = some req
  | .unlock c req r => ∃ got, r = some got ∧ OwnReply pid c req got
  | .cacheset c req got => t.pc pid = .returned got.ret got.out ∧ OwnReply pid c req got
  | _ => True

/-- The pairing of requests and replies at a transition; after it, no reply bytes are unread while
the lock is free. -/
def Paired (s : ProxyState) (op : ProxyOp) (t : ProxyState) : Prop :=
  (∀ pid env, op = .agent pid env → StepPaired s pid t) ∧ (t.holder = none → t.toGuest = [])

/-- The console is open, no pointer is null, `out` has room and the role has no delimiter. -/
def CallArgs.Usable (c : CallArgs) : Prop :=
  c.fd = true ∧ c.roleNull = false ∧ c.promptNull = false ∧ c.outNull = false ∧ 0 < c.outmax ∧
    tab ∉ c.role.bytes

instance (c : CallArgs) : Decidable c.Usable := inferInstanceAs (Decidable (_ ∧ _))

/-- If the process is at a lookup that will miss, its arguments are usable. -/
def UsableIfMissed (st : CacheState) : Pc → Prop
  | .cacheget c => c.role.length < 16 → c.prompt.length < 256 →
      hitRecord st c.role c.prompt = none → c.Usable
  | _ => True

/-- A call whose lookup misses has usable arguments. -/
def MissesUsable (s : ProxyState) : ProxyOp → ProxyState → Prop
  | .agent pid _, _ => UsableIfMissed s.cache.st (s.pc pid)
  | _, _ => True

instance (st : CacheState) : ∀ pc : Pc, Decidable (UsableIfMissed st pc)
  | .cacheget c => inferInstanceAs (Decidable (c.role.length < 16 → c.prompt.length < 256 →
      hitRecord st c.role c.prompt = none → c.Usable))
  | .returned .. | .proxylock _ | .send _ | .recv .. | .unlock .. | .cacheset .. => isTrue trivial

instance (s : ProxyState) : ∀ (op : ProxyOp) (t : ProxyState), Decidable (MissesUsable s op t)
  | .agent pid _, _ => inferInstanceAs (Decidable (UsableIfMissed s.cache.st (s.pc pid)))
  | .call .., _ | .host _, _ | .cacheclear _, _ | .reboot, _ => isTrue trivial

def CallArgs.SingleLine (c : CallArgs) : Prop := newline ∉ c.role.bytes ∧ newline ∉ c.prompt.bytes

/-- Roles, prompts and replies are single lines. -/
def ProxyOp.SingleLine : ProxyOp → Prop
  | .call _ c => c.SingleLine
  | .host result => ∀ text ∈ result, newline ∉ text
  | _ => True

instance : ∀ op : ProxyOp, Decidable op.SingleLine
  | .call _ c => inferInstanceAs (Decidable (_ ∉ c.role.bytes ∧ _ ∉ c.prompt.bytes))
  | .host result => inferInstanceAs (Decidable (∀ text ∈ result, newline ∉ text))
  | .agent .. | .cacheclear _ | .reboot => isTrue trivial

/-! ## The invariant -/

/-- The requests the daemon has not answered. -/
def ProxyState.pending (s : ProxyState) : List (Option Nat × ParsedRequest) :=
  requestsIn s.hostLine s.toHost

/-- No request and no reply is on the way. -/
def Quiet (s : ProxyState) : Prop := s.pending = [] ∧ s.toGuest = []

/-- The request is on its way, and nothing else. -/
def Waiting (s : ProxyState) (pid : Nat) (c : CallArgs) (req : Nat) (line : List UInt8) : Prop :=
  s.pending = [(some req, ⟨decimal pid, c.role.bytes, c.prompt.bytes⟩)] ∧ s.toGuest = [] ∧ line = []

/-- The reply is on its way, and nothing else: all unread bytes are its own, and reading them all
completes it. -/
def Arriving (s : ProxyState) (pid : Nat) (c : CallArgs) (req : Nat) (line : List UInt8) : Prop :=
  s.pending = [] ∧ ∃ reply : Reply, reply.req = some req ∧
    reply.parsed = ⟨decimal pid, c.role.bytes, c.prompt.bytes⟩ ∧ (∀ b ∈ s.toGuest, b.2 = reply) ∧
    recvBytes pid line (s.toGuest.map Prod.fst) =
      some (reply.text.take (500 - (decimal pid).length), [])

/-- The console as the process that holds the lock finds it. -/
def Channel (s : ProxyState) (pid : Nat) : Pc → Prop
  | .send _ => Quiet s
  | .recv c req line => c.Usable ∧ (Waiting s pid c req line ∨ Arriving s pid c req line)
  | .unlock c req r => Quiet s ∧ ∃ got, r = some got ∧ OwnReply pid c req got
  | _ => False

/-- What a process knows at each statement. -/
def PcOk (pid : Nat) : Pc → Prop
  | .cacheget c => pid < 2147483648 ∧ c.SingleLine
  | .proxylock c | .send c =>
    pid < 2147483648 ∧ c.SingleLine ∧ c.role.length < 16 ∧ c.prompt.length < 256 ∧ c.Usable
  | .recv .. => pid < 2147483648
  | .cacheset c req r => OwnReply pid c req r
  | .returned .. | .unlock .. => True

/-- The statements between `proxylock` and `proxyunlock`. -/
def Pc.InLock : Pc → Prop
  | .send _ | .recv .. | .unlock .. => True
  | _ => False

structure PairInv (s : ProxyState) : Prop where
  pcs : ∀ pid, PcOk pid (s.pc pid)
  inLock : ∀ pid, (s.pc pid).InLock → s.holder = some pid
  line : lineAfter s.hostLine s.toHost = []
  free : s.holder = none → Quiet s
  held : ∀ pid, s.holder = some pid → Channel s pid (s.pc pid)

variable {s t : ProxyState} {pid : Nat} {pc : Pc} {c : CallArgs}

theorem PairInv.init : PairInv .init where
  pcs _ := trivial
  inLock _ h := h.elim
  line := rfl
  free _ := ⟨rfl, rfl⟩
  held _ h := by cases h

/-- Whoever holds the lock is between its acquisition and its release. -/
theorem PairInv.inLock_of_held (h : PairInv s) (hp : s.holder = some pid) : (s.pc pid).InLock := by
  have hc := h.held pid hp
  cases hpc : s.pc pid <;> rw [hpc] at hc <;> first | exact trivial | exact hc

theorem pcOk_goto (hpcs : ∀ q, PcOk q (s.pc q)) (hpc : PcOk pid pc) (q : Nat) :
    PcOk q ((s.goto pid pc).pc q) := by
  by_cases hq : q = pid
  · subst hq
    simpa [ProxyState.goto] using hpc
  · simpa [ProxyState.goto, hq] using hpcs q

/-- A process outside the lock moves to another statement outside it; the cache is free to
change. -/
theorem PairInv.move (h : PairInv s) (hout : ¬ (s.pc pid).InLock) (pc : Pc) (hpc : PcOk pid pc)
    (hnew : ¬ pc.InLock) (cache : LogState) : PairInv ({ s with cache := cache }.goto pid pc) where
  pcs := pcOk_goto h.pcs hpc
  inLock q hq := by
    by_cases heq : q = pid
    · subst heq
      simp only [ProxyState.goto, Function.update_self] at hq
      exact absurd hq hnew
    · simp only [ProxyState.goto, Function.update_of_ne heq] at hq
      exact h.inLock q hq
  line := h.line
  free := h.free
  held q hq := by
    have hne : q ≠ pid := fun heq => hout (heq ▸ h.inLock_of_held hq)
    have hc := h.held q hq
    simp only [ProxyState.goto, Function.update_of_ne hne]
    cases hpcq : s.pc q <;> rw [hpcq] at hc <;> exact hc

/-- The process that holds the lock moves within it. -/
theorem PairInv.moveInLock (h : PairInv s) (hp : s.holder = some pid) {u : ProxyState}
    (hu : u.holder = s.holder) (hpcs : u.pc = s.pc) (hline : lineAfter u.hostLine u.toHost = [])
    (hpc : PcOk pid pc) (hch : Channel (u.goto pid pc) pid pc) : PairInv (u.goto pid pc) where
  pcs := pcOk_goto (hpcs ▸ h.pcs) hpc
  inLock q hq := by
    by_cases heq : q = pid
    · subst heq
      exact hu.trans hp
    · simp only [ProxyState.goto, Function.update_of_ne heq, hpcs] at hq
      exact hu.trans (h.inLock q hq)
  line := hline
  free hf := by simp [ProxyState.goto, hu, hp] at hf
  held q hq := by
    obtain rfl : pid = q := by
      have : s.holder = some q := hu ▸ hq
      exact Option.some.inj (hp.symm.trans this)
    simpa [ProxyState.goto] using hch

/-! ## Steps -/

/-- Bytes to the daemon that leave the pending requests alone change nothing for the protocol. -/
theorem PairInv.withPending (h : PairInv s) {toHost : List (UInt8 × Option Nat)}
    {hostLine : List UInt8} (hline : lineAfter hostLine toHost = [])
    (hpending : requestsIn hostLine toHost = s.pending) :
    PairInv { s with toHost := toHost, hostLine := hostLine } where
  pcs := h.pcs
  inLock := h.inLock
  line := hline
  free hf := ⟨hpending.trans (h.free hf).1, (h.free hf).2⟩
  held q hq := by
    have hc := h.held q hq
    change Channel _ q (s.pc q)
    cases hpc : s.pc q <;> rw [hpc] at hc
    case send => exact ⟨hpending.trans hc.1, hc.2⟩
    case recv =>
      refine ⟨hc.1, hc.2.imp (fun hw => ⟨hpending.trans hw.1, hw.2⟩) fun ha => ?_⟩
      exact ⟨hpending.trans ha.1, ha.2⟩
    case unlock => exact ⟨⟨hpending.trans hc.1.1, hc.1.2⟩, hc.2⟩
    all_goals exact hc

/-- A marker line changes nothing for the protocol. -/
theorem PairInv.writeMarker (h : PairInv s) {role : Option CString}
    (hrole : ∀ r ∈ role, newline ∉ r.bytes) : PairInv (s.write none (cacheHitLine role)) := by
  obtain ⟨text, htext, hline, hparse⟩ := cacheHitLine_eq hrole
  obtain ⟨hreqs, hafter⟩ := requestsIn_line hline [] none
  rw [ProxyState.write, htext]
  refine h.withPending ?_ ?_
  · rw [lineAfter_append, h.line, hafter]
  · rw [requestsIn_append, h.line, hreqs, List.nil_append, hparse]
    exact List.append_nil _

theorem PairInv.cacheget (h : PairInv s) (hpc : s.pc pid = .cacheget c)
    (huse : UsableIfMissed s.cache.st (.cacheget c)) (env : CacheEnv) :
    PairInv (cachegetStep env s pid c) := by
  have hout : ¬ (s.pc pid).InLock := by simp [hpc, Pc.InLock]
  have hok := h.pcs pid
  rw [hpc] at hok
  simp only [cachegetStep]
  generalize (if c.outNull = true then 0 else c.outmax) = outmax
  split
  · split
    · have hw : PairInv (s.write none (cacheHitLine (if c.roleNull then none else c.role))) := by
        refine h.writeMarker fun r hr => ?_
        split at hr
        · cases hr
        · obtain rfl := Option.some.inj hr
          exact hok.2.1
      exact hw.move hout (.returned ..) trivial id _
    · exact h.move hout (.returned ..) trivial id _
  · next hmiss =>
    obtain ⟨hrole, hprompt, hnone⟩ := cachegetVal_ret_zero_iff.mp (not_not.mp hmiss)
    exact h.move hout (.proxylock c)
      ⟨hok.1, hok.2, hrole, hprompt, huse hrole hprompt hnone⟩ id _

theorem PairInv.proxylock (h : PairInv s) (hpc : s.pc pid = .proxylock c)
    (hfree : s.holder = none) : PairInv ({ s with holder := some pid }.goto pid (.send c)) where
  pcs := by
    have hok := h.pcs pid
    rw [hpc] at hok
    exact pcOk_goto h.pcs hok
  inLock q hq := by
    by_cases heq : q = pid
    · rw [heq]
      rfl
    · simp only [ProxyState.goto, Function.update_of_ne heq] at hq
      simpa [hfree] using h.inLock q hq
  line := h.line
  free hf := by cases hf
  held q hq := by
    obtain rfl : pid = q := Option.some.inj hq
    simp only [ProxyState.goto, Function.update_self]
    exact h.free hfree

/-- The request of the process that holds the lock is the only one on the way. -/
theorem PairInv.send (h : PairInv s) (hpc : s.pc pid = .send c) :
    PairInv (sendStep s pid c) := by
  have hok := h.pcs pid
  have hholder := h.inLock pid (by simp [hpc, Pc.InLock])
  have hquiet := h.held pid hholder
  rw [hpc] at hok hquiet
  obtain ⟨hpid, ⟨hrole, hprompt⟩, hrlen, hplen, huse⟩ := hok
  obtain ⟨hfd, hr, hp, -, -, htab⟩ := id huse
  obtain ⟨hreqs, hafter⟩ := requestsIn_line (newline_not_mem_requestText hrole hprompt)
    [] (some s.nextReq)
  rw [sendStep, if_neg (by simp [hfd, hr, hp])]
  refine h.moveInLock hholder rfl rfl ?_ hpid ⟨huse, Or.inl ⟨?_, hquiet.2, rfl⟩⟩
  · simp only [ProxyState.write]
    rw [requestLine_eq hrlen hplen, lineAfter_append, h.line, hafter]
  · change requestsIn s.hostLine (s.toHost ++ _) = _
    have hnone : requestsIn s.hostLine s.toHost = [] := hquiet.1
    rw [requestLine_eq hrlen hplen, requestsIn_append, h.line, hreqs, hnone, List.nil_append,
      List.nil_append, parseRequest_requestText pid htab]
    rfl

/-- The reader takes bytes of its own reply, and its last byte completes it. -/
theorem PairInv.recv (h : PairInv s) {req : Nat} {line : List UInt8}
    (hpc : s.pc pid = .recv c req line) (hstep : recvStep s pid c req line = some t) :
    (∀ b, s.toGuest = b :: t.toGuest → b.2.req = some req) ∧ PairInv t := by
  have hok := h.pcs pid
  have hholder := h.inLock pid (by simp [hpc, Pc.InLock])
  have hch := h.held pid hholder
  rw [hpc] at hok hch
  obtain ⟨huse, hstate⟩ := hch
  obtain ⟨-, -, -, hnull, hmax, -⟩ := id huse
  rw [recvStep, if_neg (by simp [hnull]; omega)] at hstep
  rcases hstate with ⟨-, hempty, -⟩ | ⟨hpend, reply, hreq, hparsed, hown, hrecv⟩
  · simp [hempty] at hstep
  cases hguest : s.toGuest with
  | nil => simp [hguest] at hstep
  | cons b rest =>
    obtain ⟨b, tag⟩ := b
    rw [hguest] at hown hrecv hstep
    obtain rfl : tag = reply := hown (b, tag) List.mem_cons_self
    refine ⟨?_, ?_⟩
    · rintro ⟨b', tag'⟩ heq
      obtain ⟨⟨-, rfl⟩, -⟩ : (b = b' ∧ tag = tag') ∧ _ := by simpa using heq
      exact hreq
    simp only [List.map_cons, recvBytes] at hrecv
    cases hbyte : recvByte pid line b with
    | more line' =>
      simp only [hbyte] at hstep hrecv
      obtain rfl := Option.some.inj hstep
      refine h.moveInLock hholder rfl rfl h.line hok ⟨huse, Or.inr ⟨hpend, tag, hreq, hparsed, ?_,
        hrecv⟩⟩
      exact fun x hx => hown x (List.mem_cons_of_mem _ hx)
    | done payload =>
      simp only [hbyte] at hstep hrecv
      obtain rfl := Option.some.inj hstep
      obtain ⟨rfl, hrest⟩ := Prod.mk.inj (Option.some.inj hrecv)
      refine h.moveInLock hholder rfl rfl h.line trivial ⟨⟨hpend, List.map_eq_nil_iff.mp hrest⟩,
        _, rfl, ⟨hreq, rfl, hparsed, rfl⟩⟩

theorem PairInv.unlock (h : PairInv s) {req : Option Nat} {r : Option Received}
    (hpc : s.pc pid = .unlock c req r) (env : CacheEnv) (hstep : agentStep env s pid = some t) :
    (∃ got, r = some got ∧ OwnReply pid c req got) ∧ PairInv t := by
  have hholder := h.inLock pid (by simp [hpc, Pc.InLock])
  have hch := h.held pid hholder
  rw [hpc] at hch
  obtain ⟨hquiet, got, rfl, hown⟩ := hch
  refine ⟨⟨got, rfl, hown⟩, ?_⟩
  simp only [agentStep, hpc, hholder, if_true] at hstep
  obtain rfl := Option.some.inj hstep
  refine ⟨pcOk_goto h.pcs hown, fun q hq => ?_, h.line, fun _ => hquiet, fun q hq => by cases hq⟩
  · by_cases heq : q = pid
    · subst heq
      simp [ProxyState.goto, Pc.InLock] at hq
    · simp only [ProxyState.goto, Function.update_of_ne heq] at hq
      exact absurd (Option.some.inj ((h.inLock q hq).symm.trans hholder)) heq

theorem PairInv.cacheset (h : PairInv s) {req : Option Nat} {r : Received}
    (hpc : s.pc pid = .cacheset c req r) (env : CacheEnv) (hstep : agentStep env s pid = some t) :
    (t.pc pid = .returned r.ret r.out ∧ OwnReply pid c req r) ∧ PairInv t := by
  have hout : ¬ (s.pc pid).InLock := by simp [hpc, Pc.InLock]
  have hown := h.pcs pid
  rw [hpc] at hown
  simp only [agentStep, hpc] at hstep
  obtain rfl := Option.some.inj hstep
  exact ⟨⟨Function.update_self .., hown⟩, h.move hout (.returned ..) trivial id _⟩

/-- An unanswered request is that of the process in `proxy_recv`, and there is no other. -/
theorem PairInv.waiting_of_pending (h : PairInv s) {x : Option Nat × ParsedRequest}
    {rest : List (Option Nat × ParsedRequest)} (hp : s.pending = x :: rest) :
    ∃ pid c req line, s.holder = some pid ∧ s.pc pid = .recv c req line ∧ c.Usable ∧
      Waiting s pid c req line := by
  cases hholder : s.holder with
  | none =>
    have hquiet := (h.free hholder).1
    simp [hp] at hquiet
  | some pid =>
    have hch := h.held pid hholder
    cases hpc : s.pc pid <;> rw [hpc] at hch
    case send =>
      have hquiet := hch.1
      simp [hp] at hquiet
    case unlock =>
      have hquiet := hch.1.1
      simp [hp] at hquiet
    case recv c req line =>
      obtain ⟨huse, hwait | ⟨hquiet, -⟩⟩ := hch
      · exact ⟨pid, c, req, line, rfl, hpc, huse, hwait⟩
      · simp [hp] at hquiet
    all_goals exact hch.elim

/-- The daemon's answer to the one request on the way is what its sender then receives. -/
theorem PairInv.reply (h : PairInv s) {result : Option (List UInt8)}
    (hresult : ∀ text ∈ result, newline ∉ text) {req : Option Nat} {parsed : ParsedRequest}
    {toHost : List (UInt8 × Option Nat)} (hline : lineAfter [] toHost = [])
    (hp : s.pending = (req, parsed) :: requestsIn [] toHost) :
    PairInv { s with
      toHost := toHost
      hostLine := []
      toGuest := s.toGuest ++ (responseLine parsed.id (Reply.text ⟨req, parsed, result⟩)).map
        (·, ⟨req, parsed, result⟩) } := by
  obtain ⟨pid, c, k, line, hholder, hpc, huse, hpend, hguest, rfl⟩ := h.waiting_of_pending hp
  obtain ⟨⟨rfl, rfl⟩, hnone⟩ : (req = some k ∧
      parsed = ⟨decimal pid, c.role.bytes, c.prompt.bytes⟩) ∧ requestsIn [] toHost = [] := by
    simpa using hp.symm.trans hpend
  have hpid := h.pcs pid
  rw [hpc] at hpid
  refine ⟨h.pcs, h.inLock, hline, fun hf => ?_, fun q hq => ?_⟩
  · cases hf.symm.trans hholder
  · obtain rfl : q = pid := Option.some.inj (hq.symm.trans hholder)
    have htext : newline ∉
        Reply.text ⟨some k, ⟨decimal q, c.role.bytes, c.prompt.bytes⟩, result⟩ := by
      cases result with
      | none =>
        change newline ∉ handlerError
        decide
      | some text => exact hresult text rfl
    have hrecv := recvBytes_responseLine hpid htext []
    change Channel _ q (s.pc q)
    rw [hpc]
    refine ⟨huse, Or.inr ⟨hnone, ⟨some k, _, result⟩, rfl, rfl, ?_, ?_⟩⟩
    · intro b hb
      rw [hguest, List.nil_append] at hb
      obtain ⟨_, -, rfl⟩ := List.mem_map.mp hb
      rfl
    · simpa [hguest, Function.comp_def] using hrecv

/-- The daemon reads on, or turns the one request on the way into its reply. -/
theorem PairInv.host (h : PairInv s) {result : Option (List UInt8)}
    (hline : ∀ text ∈ result, newline ∉ text) (hstep : hostByte result s = some t) :
    PairInv t := by
  unfold hostByte at hstep
  split at hstep
  · cases hstep
  next b req rest htohost =>
  have hafter := h.line
  rw [htohost, lineAfter] at hafter
  by_cases hb : b = newline
  · rw [if_neg (not_not_intro hb)] at hstep hafter
    -- a complete line is taken off the pending requests
    have hpending : s.pending = ((parseRequest s.hostLine).map (req, ·)).toList ++
        requestsIn [] rest := by
      rw [ProxyState.pending, htohost, requestsIn, if_neg (not_not_intro hb)]
    cases hparse : parseRequest s.hostLine with
    | none =>
      simp only [hparse] at hstep
      obtain rfl := Option.some.inj hstep
      rw [hparse] at hpending
      exact h.withPending hafter hpending.symm
    | some parsed =>
      simp only [hparse] at hstep
      obtain rfl := Option.some.inj hstep
      rw [hparse] at hpending
      exact h.reply hline hafter hpending
  · rw [if_pos hb] at hstep hafter
    obtain rfl := Option.some.inj hstep
    refine h.withPending hafter ?_
    simp only [ProxyState.pending, htohost]
    rw [requestsIn, if_pos hb]

theorem PairInv.agent (h : PairInv s) (env : CacheEnv)
    (huse : UsableIfMissed s.cache.st (s.pc pid)) (hstep : agentStep env s pid = some t) :
    StepPaired s pid t ∧ PairInv t := by
  unfold StepPaired
  cases hpc : s.pc pid with
  | returned ret out => simp [agentStep, hpc] at hstep
  | cacheget c =>
    simp only [agentStep, hpc] at hstep
    rw [hpc] at huse
    exact ⟨trivial, Option.some.inj hstep ▸ h.cacheget hpc huse env⟩
  | proxylock c =>
    simp only [agentStep, hpc] at hstep
    split at hstep
    · next hfree => exact ⟨trivial, Option.some.inj hstep ▸ h.proxylock hpc hfree⟩
    · cases hstep
  | send c =>
    simp only [agentStep, hpc] at hstep
    exact ⟨trivial, Option.some.inj hstep ▸ h.send hpc⟩
  | recv c req line =>
    simp only [agentStep, hpc] at hstep
    exact h.recv hpc hstep
  | unlock c req r => exact h.unlock hpc env hstep
  | cacheset c req r => exact h.cacheset hpc env hstep

/-- One transition keeps the invariant and is paired. -/
theorem PairInv.step (h : PairInv s) {op : ProxyOp} (hline : op.SingleLine)
    (huse : MissesUsable s op t) (hstep : proxyNext s op = some t) : Paired s op t ∧ PairInv t := by
  have key : (∀ pid env, op = .agent pid env → StepPaired s pid t) ∧ PairInv t := by
    cases op with
    | call pid c =>
      refine ⟨fun _ _ heq => (nomatch heq), ?_⟩
      simp only [proxyNext] at hstep
      split at hstep
      · next ret out hpc =>
        split at hstep
        · next hpid =>
          obtain rfl := Option.some.inj hstep
          exact h.move (by simp [hpc, Pc.InLock]) (.cacheget c) ⟨hpid, hline⟩ id s.cache
        · cases hstep
      · cases hstep
    | agent pid env =>
      obtain ⟨hpaired, hinv⟩ := h.agent env huse hstep
      refine ⟨fun q env' heq => ?_, hinv⟩
      obtain ⟨rfl, -⟩ := ProxyOp.agent.inj heq
      exact hpaired
    | host result => exact ⟨fun _ _ heq => (nomatch heq), h.host hline hstep⟩
    | cacheclear a0 =>
      obtain rfl := Option.some.inj hstep
      refine ⟨fun _ _ heq => (nomatch heq), ⟨h.pcs, h.inLock, h.line, h.free, fun q hq => ?_⟩⟩
      have hc := h.held q hq
      change Channel _ q (s.pc q)
      cases hpc : s.pc q <;> rw [hpc] at hc <;> exact hc
    | reboot =>
      obtain rfl := Option.some.inj hstep
      refine ⟨fun _ _ heq => (nomatch heq), ?_⟩
      exact ⟨fun _ => trivial, fun _ hin => hin.elim, rfl, fun _ => ⟨rfl, rfl⟩,
        fun _ hq => (nomatch hq)⟩
  exact ⟨⟨key.1, fun hfree => (key.2.free hfree).2⟩, key.2⟩

/-! ## Calls return

The lock does not order its waiters, so another process may overtake a waiting one any number of
times. But whatever has happened, the steps of the holder, the daemon and the caller itself bring
every call that missed to its end. -/

/-- The statements of `proxy_call` behind a miss. -/
def Pc.Missed : Pc → Prop
  | .returned .. | .cacheget _ => False
  | _ => True

theorem PairInv.ownStep (h : PairInv s) {env : CacheEnv} (hpc : ∀ c, s.pc pid ≠ .cacheget c)
    (hstep : agentStep env s pid = some t) : Paired s (.agent pid env) t ∧ PairInv t := by
  have huse : UsableIfMissed s.cache.st (s.pc pid) := by
    cases hc : s.pc pid with
    | cacheget c => exact absurd hc (hpc c)
    | _ => exact trivial
  exact h.step trivial huse hstep

/-- The daemon can always empty the console. -/
theorem PairInv.drainHost (h : PairInv s) : ∃ t, Reaches proxyNext Paired s t ∧ PairInv t ∧
    t.toHost = [] ∧ t.pc = s.pc ∧ t.holder = s.holder := by
  induction hbytes : s.toHost generalizing s with
  | nil => exact ⟨s, .refl s, h, hbytes, rfl, rfl⟩
  | cons b rest ih =>
    obtain ⟨u, hstep, hrest, hpc, hholder⟩ : ∃ u, proxyNext s (.host none) = some u ∧
        u.toHost = rest ∧ u.pc = s.pc ∧ u.holder = s.holder := by
      simp only [proxyNext, hostByte, hbytes]
      split
      · exact ⟨_, rfl, rfl, rfl, rfl⟩
      · split <;> exact ⟨_, rfl, rfl, rfl, rfl⟩
    have hline : (ProxyOp.host none).SingleLine := fun _ hn => nomatch hn
    obtain ⟨hpaired, hinv⟩ := h.step hline trivial hstep
    obtain ⟨t, hreach, ht, hempty, hpc', hholder'⟩ := ih hinv hrest
    exact ⟨t, .head hstep hpaired hreach, ht, hempty, hpc'.trans hpc, hholder'.trans hholder⟩

/-- With the daemon done, the reader gets its whole reply. -/
theorem PairInv.drainGuest (h : PairInv s) (env : CacheEnv) (hhost : s.toHost = []) {req : Nat}
    {line : List UInt8} (hpc : s.pc pid = .recv c req line) :
    ∃ t r, Reaches proxyNext Paired s t ∧ PairInv t ∧ t.pc pid = .unlock c (some req) r ∧
      ∀ q, q ≠ pid → t.pc q = s.pc q := by
  induction hguest : s.toGuest generalizing s line with
  | nil =>
    have hch := h.held pid (h.inLock pid (by simp [hpc, Pc.InLock]))
    rw [hpc] at hch
    obtain ⟨-, ⟨hpend, -⟩ | ⟨-, reply, -, -, -, hrecv⟩⟩ := hch
    · simp [ProxyState.pending, hhost, requestsIn] at hpend
    · simp [hguest, recvBytes] at hrecv
  | cons b rest ih =>
    have hch := h.held pid (h.inLock pid (by simp [hpc, Pc.InLock]))
    rw [hpc] at hch
    obtain ⟨-, -, -, hnull, hmax, -⟩ := hch.1
    have hbuf : ¬ (c.outNull = true ∨ c.outmax ≤ 0) := by
      rw [hnull]
      simpa using hmax
    have hne : ∀ c', s.pc pid ≠ .cacheget c' := by simp [hpc]
    have hcase : agentStep env s pid = recvStep s pid c req line := by simp [agentStep, hpc]
    rw [recvStep, if_neg hbuf, hguest] at hcase
    cases hbyte : recvByte pid line b.1 with
    | more line' =>
      simp only [hbyte] at hcase
      obtain ⟨hpaired, hinv⟩ := h.ownStep hne hcase
      obtain ⟨t, r, hreach, ht, hdone, hothers⟩ := ih hinv hhost (Function.update_self ..) rfl
      refine ⟨t, r, .head (l := .agent pid env) hcase hpaired hreach, ht, hdone, fun q hq => ?_⟩
      rw [hothers q hq]
      exact Function.update_of_ne hq ..
    | done payload =>
      simp only [hbyte] at hcase
      obtain ⟨hpaired, hinv⟩ := h.ownStep hne hcase
      exact ⟨_, _, .head (l := .agent pid env) hcase hpaired (.refl _), hinv,
        Function.update_self .., fun q hq => Function.update_of_ne hq ..⟩

/-- The system can come to a state where `pid` has released the lock and the others are where they
were. -/
def CanRelease (s : ProxyState) (pid : Nat) : Prop :=
  ∃ t c req r, Reaches proxyNext Paired s t ∧ PairInv t ∧ t.holder = none ∧
    t.pc pid = .cacheset c req r ∧ ∀ q, q ≠ pid → t.pc q = s.pc q

/-- The system can come to a state where `pid` has returned from its call. -/
def CanReturn (s : ProxyState) (pid : Nat) : Prop :=
  ∃ t ret out, Reaches proxyNext Paired s t ∧ t.pc pid = .returned ret out

theorem CanRelease.of_reaches {u : ProxyState} (hreach : Reaches proxyNext Paired s u)
    (hothers : ∀ q, q ≠ pid → u.pc q = s.pc q) (h : CanRelease u pid) : CanRelease s pid := by
  obtain ⟨t, c, req, r, hut, ht, hfree, hpc, hsame⟩ := h
  exact ⟨t, c, req, r, hreach.trans hut, ht, hfree, hpc,
    fun q hq => (hsame q hq).trans (hothers q hq)⟩

theorem CanReturn.of_reaches {u : ProxyState} (hreach : Reaches proxyNext Paired s u)
    (h : CanReturn u pid) : CanReturn s pid := by
  obtain ⟨t, ret, out, hut, ht⟩ := h
  exact ⟨t, ret, out, hreach.trans hut, ht⟩

theorem PairInv.release_of_unlock (h : PairInv s) (env : CacheEnv) {req : Option Nat}
    {r : Option Received} (hpc : s.pc pid = .unlock c req r) : CanRelease s pid := by
  have hholder := h.inLock pid (by simp [hpc, Pc.InLock])
  have hch := h.held pid hholder
  rw [hpc] at hch
  obtain ⟨-, got, rfl, -⟩ := hch
  have hcase : agentStep env s pid = some ({ s with holder := none }.goto pid
      (.cacheset c req got)) := by simp [agentStep, hpc, hholder]
  obtain ⟨hpaired, hinv⟩ := h.ownStep (by simp [hpc]) hcase
  exact ⟨_, c, req, got, .head (l := .agent pid env) hcase hpaired (.refl _), hinv, rfl,
    Function.update_self .., fun q hq => Function.update_of_ne hq ..⟩

theorem PairInv.release_of_recv (h : PairInv s) (env : CacheEnv) {req : Nat} {line : List UInt8}
    (hpc : s.pc pid = .recv c req line) : CanRelease s pid := by
  obtain ⟨u, hsu, hu, hempty, hupc, -⟩ := h.drainHost
  obtain ⟨v, r, huv, hv, hvpc, hothers⟩ := hu.drainGuest env hempty (hupc ▸ hpc)
  refine (hv.release_of_unlock env hvpc).of_reaches (hsu.trans huv) fun q hq => ?_
  rw [hothers q hq, hupc]

theorem PairInv.release_of_send (h : PairInv s) (env : CacheEnv) (hpc : s.pc pid = .send c) :
    CanRelease s pid := by
  have hok := h.pcs pid
  rw [hpc] at hok
  obtain ⟨-, -, -, -, hfd, hrole, hprompt, -⟩ := hok
  have hsend : sendStep s pid c = { s.write s.nextReq (requestLine pid c.role c.prompt) with
      nextReq := s.nextReq + 1 }.goto pid (.recv c s.nextReq []) := by
    rw [sendStep, if_neg (by simp [hfd, hrole, hprompt])]
  have hcase : agentStep env s pid = some (sendStep s pid c) := by simp [agentStep, hpc]
  rw [hsend] at hcase
  obtain ⟨hpaired, hinv⟩ := h.ownStep (by simp [hpc]) hcase
  refine (hinv.release_of_recv env (Function.update_self ..)).of_reaches
    (.head (l := .agent pid env) hcase hpaired (.refl _)) fun q hq => ?_
  exact Function.update_of_ne hq ..

/-- The holder of the lock comes to release it. -/
theorem PairInv.release (h : PairInv s) (env : CacheEnv) (hp : s.holder = some pid) :
    CanRelease s pid := by
  have hin := h.inLock_of_held hp
  cases hpc : s.pc pid with
  | send c => exact h.release_of_send env hpc
  | recv c req line => exact h.release_of_recv env hpc
  | unlock c req r => exact h.release_of_unlock env hpc
  | _ =>
    rw [hpc] at hin
    exact hin.elim

theorem PairInv.return_of_cacheset (h : PairInv s) (env : CacheEnv) {req : Option Nat}
    {r : Received} (hpc : s.pc pid = .cacheset c req r) : CanReturn s pid := by
  have hcase : agentStep env s pid = some ({ s with cache := (cachesetVal env.bmap env.junk s.cache
      c.role c.prompt (.ofBytes r.out)).2 }.goto pid (.returned r.ret r.out)) := by
    simp [agentStep, hpc]
  obtain ⟨hpaired, -⟩ := h.ownStep (by simp [hpc]) hcase
  exact ⟨_, _, _, .head (l := .agent pid env) hcase hpaired (.refl _), Function.update_self ..⟩

theorem PairInv.return_of_held (h : PairInv s) (env : CacheEnv) (hp : s.holder = some pid) :
    CanReturn s pid := by
  obtain ⟨u, c, req, r, hsu, hu, -, hpc, -⟩ := h.release env hp
  exact (hu.return_of_cacheset env hpc).of_reaches hsu

theorem PairInv.return_of_free (h : PairInv s) (env : CacheEnv) (hpc : s.pc pid = .proxylock c)
    (hfree : s.holder = none) : CanReturn s pid := by
  have hcase : agentStep env s pid = some ({ s with holder := some pid }.goto pid (.send c)) := by
    simp [agentStep, hpc, hfree]
  obtain ⟨hpaired, hinv⟩ := h.ownStep (by simp [hpc]) hcase
  exact (hinv.return_of_held env rfl).of_reaches
    (.head (l := .agent pid env) hcase hpaired (.refl _))

/-- Every call that missed can be brought to its end, with every step on the way paired. -/
theorem PairInv.returns (h : PairInv s) (env : CacheEnv) (hmiss : (s.pc pid).Missed) :
    CanReturn s pid := by
  cases hpc : s.pc pid with
  | returned ret out => exact absurd hmiss (by simp [hpc, Pc.Missed])
  | cacheget c => exact absurd hmiss (by simp [hpc, Pc.Missed])
  | cacheset c req r => exact h.return_of_cacheset env hpc
  | proxylock c =>
    cases hholder : s.holder with
    | none => exact h.return_of_free env hpc hholder
    | some q =>
      -- whoever holds the lock is served first
      have hne : pid ≠ q := by
        rintro rfl
        have := h.inLock_of_held hholder
        simp [hpc, Pc.InLock] at this
      obtain ⟨u, -, -, -, hsu, hu, hnone, -, hothers⟩ := h.release env hholder
      exact (hu.return_of_free env ((hothers pid hne).trans hpc) hnone).of_reaches hsu
  | _ => exact h.return_of_held env (h.inLock pid (by simp [hpc, Pc.InLock]))

/-- In every interleaving of any number of processes with the daemon, over single-line roles,
prompts and replies: if every call that misses has usable arguments, each returns the reply to its
own request, nobody else reads a byte of it, and no reply is unread while the lock is free. From
every state on the way, every call that missed can still return. -/
theorem paired_of_missesUsable (ops : List ProxyOp) (hline : ∀ op ∈ ops, op.SingleLine)
    (huse : Along proxyNext MissesUsable .init ops) : Along proxyNext Paired .init ops ∧
      ∀ s, exec proxyNext .init ops = some s → ∀ pid, (s.pc pid).Missed → CanReturn s pid := by
  have hstep : ∀ s op t, op ∈ ops → PairInv s → proxyNext s op = some t → MissesUsable s op t →
      Paired s op t ∧ PairInv t :=
    fun _ op _ hop hs hnext hc => hs.step (hline op hop) hc hnext
  refine ⟨huse.of_invariant_mem PairInv hstep .init, fun s hs pid hmiss => ?_⟩
  have hinv : PairInv s := exec_invariant_of_along
    (fun s op t hop hi hnext hc => (hstep s op t hop hi hnext hc).2) .init hs huse
  exact hinv.returns ⟨fun _ => true, .zero, .replicate _ 0⟩ hmiss

/-- Two processes miss; the second one gets the lock first, and the first one gets it before the
second has stored its reply. -/
def twoCallers : List ProxyOp :=
  [.call 1 (callArgs "p" 8), .call 2 (callArgs "q" 8), runs 1, runs 2, runs 2, runs 2] ++
    List.replicate 16 (replies "y") ++ List.replicate 15 (runs 2) ++ [runs 1, runs 2, runs 1] ++
    List.replicate 16 (replies "x") ++ List.replicate 16 (runs 1)

theorem twoCallers_paired : (exec proxyNext .init twoCallers).isSome = true ∧
    Along proxyNext Paired .init twoCallers :=
  ⟨by decide +kernel,
    (paired_of_missesUsable twoCallers (by decide +kernel) (by decide +kernel)).1⟩

/-- Process 1 calls with `outmax` 0, the daemon answers "x", and process 1 calls again. -/
def staleReply : List ProxyOp :=
  .call 1 (callArgs "p" 0) :: List.replicate 5 (runs 1) ++ List.replicate 16 (replies "x") ++
    .call 1 (callArgs "q" 8) :: List.replicate 17 (runs 1)

/-- The request a process at `proxyunlock` sent, and the one it got the answer to. -/
def requestAnswered (s : ProxyState) (pid : Nat) : Option (Option Nat × Option Nat) :=
  match s.pc pid with
  | .unlock _ req (some got) => some (req, got.reply.req)
  | _ => none

/-- The second call is about to return the answer to the first. -/
theorem second_call_gets_first_reply :
    ¬ ∀ ops : List ProxyOp, (∀ op ∈ ops, op.SingleLine) → Along proxyNext Paired .init ops := by
  intro h
  have hrun := h (staleReply ++ [runs 1]) (by decide +kernel)
  have hend : (exec proxyNext .init staleReply).bind (requestAnswered · 1) =
      some (some 1, some 0) := by decide +kernel
  obtain ⟨u, hu, hanswer⟩ := Option.bind_eq_some_iff.mp hend
  obtain ⟨c, got, hpc, hreq⟩ : ∃ c got, u.pc 1 = .unlock c (some 1) (some got) ∧
      got.reply.req = some 0 := by
    unfold requestAnswered at hanswer
    split at hanswer
    · next c req got hpc =>
      obtain ⟨rfl, hreq⟩ := Prod.mk.inj (Option.some.inj hanswer)
      exact ⟨c, got, hpc, hreq⟩
    · cases hanswer
  have hstep : ∃ t, proxyNext u (runs 1) = some t := by
    simp only [runs, proxyNext, agentStep, hpc]
    exact ⟨_, rfl⟩
  obtain ⟨t, ht⟩ := hstep
  have hpaired := (along_iff_forall.mp hrun staleReply (runs 1) [] u t rfl hu ht).1 1 _ rfl
  rw [StepPaired, hpc] at hpaired
  obtain ⟨got', hgot, hown⟩ := hpaired
  obtain rfl := Option.some.inj hgot
  have := hreq.symm.trans hown.req_eq
  simp at this

end LiberalOS.Proxy
