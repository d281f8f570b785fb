import LiberalOS.Cache.Syscalls
import LiberalOS.Proxy.Client

/-!
# Agents and the host daemon

Any number of processes make proxy calls over one console while the daemon of
`host/proxy_daemon.py` answers. A step is one system call of one process, one byte read by
`proxy_recv`, or one byte taken by the daemon. The console is a lossless FIFO in both directions
and only `proxy_recv` reads from it.

Bytes carry ghosts that no step reads: a request byte the number of its request, a reply byte the
request it answers, what the handler was called with and what it did.

## Main definitions

* `agentStep`, `hostByte` — the steps of `proxy_call` and of the daemon.
* `proxyNext` — the system.
* `requestsIn` — the requests the daemon will find in the bytes it has not processed.
-/
namespace LiberalOS.Proxy
open Foundation Kernel Cache

/-! ## The daemon's side of the frame -/

/-- Split at the first tab. -/
def splitTab (bs : List UInt8) : Option (List UInt8 × List UInt8) :=
  match bs.dropWhile (· != tab) with
  | [] => none
  | _ :: rest => some (bs.takeWhile (· != tab), rest)

/-- What the daemon reads off a PROXY_REQ line. -/
structure ParsedRequest where
  id : List UInt8
  role : List UInt8
  prompt : List UInt8
  deriving DecidableEq

/-- `text.startswith(PROXY_REQ_TAG + "\t")`, then `text.split("\t", 3)` into four parts. -/
def parseRequest (text : List UInt8) : Option ParsedRequest :=
  if text.take 10 = proxyReqTag ++ [tab] then
    (splitTab (text.drop 10)).bind fun id =>
      (splitTab id.2).map fun role => ⟨id.1, role.1, role.2⟩
  else none

/-- The text sent when the handler raises. -/
def handlerError : List UInt8 := (CString.lit "__HANDLER_ERROR__").bytes

/-- The marker line of a hit: a buffer of 64 bytes, nothing for a null role. -/
def cacheHitLine (role : Option CString) : List UInt8 :=
  let buf := proxyAppendStr 64 [] ((CString.lit "CACHE_HIT").bytes ++ [tab])
  let buf := proxyAppendStr 64 buf ((role.map CString.bytes).getD [])
  buf ++ [newline]

/-! ## States -/

/-- The arguments of a call: the bytes at its pointers, and which pointers are null. `fd` says
whether the console can be opened. -/
structure CallArgs where
  role : CString
  prompt : CString
  out : List UInt8
  outmax : Int
  roleNull : Bool
  promptNull : Bool
  outNull : Bool
  fd : Bool
  deriving DecidableEq

/-- An answer of the daemon: the number of the request, the parsed line, and the handler's result,
`none` when it raised. -/
structure Reply where
  req : Option Nat
  parsed : ParsedRequest
  result : Option (List UInt8)
  deriving DecidableEq

/-- The text behind the id in the PROXY_RES line. -/
def Reply.text (r : Reply) : List UInt8 := r.result.getD handlerError

/-- What `proxy_recv` returned and stored, with the answer it came from. -/
structure Received where
  ret : Int
  out : List UInt8
  reply : Reply
  deriving DecidableEq

/-- Where a process is: after its last call with that call's result, or at a statement of
`proxy_call`. `req` is the number of the request it sent. -/
inductive Pc where
  | returned (ret : Int) (out : List UInt8)
  | cacheget (c : CallArgs)
  | proxylock (c : CallArgs)
  | send (c : CallArgs)
  | recv (c : CallArgs) (req : Nat) (line : List UInt8)
  | unlock (c : CallArgs) (req : Option Nat) (r : Option Received)
  | cacheset (c : CallArgs) (req : Option Nat) (r : Received)
  deriving DecidableEq

structure ProxyState where
  pc : Nat → Pc
  holder : Option Nat
  cache : LogState
  toHost : List (UInt8 × Option Nat)
  hostLine : List UInt8
  toGuest : List (UInt8 × Reply)
  nextReq : Nat

def ProxyState.init : ProxyState := ⟨fun _ => .returned 0 [], none, .init, [], [], [], 0⟩

def ProxyState.goto (s : ProxyState) (pid : Nat) (pc : Pc) : ProxyState :=
  { s with pc := Function.update s.pc pid pc }

/-- One `write` to the console. -/
def ProxyState.write (s : ProxyState) (req : Option Nat) (bs : List UInt8) : ProxyState :=
  { s with toHost := s.toHost ++ bs.map (·, req) }

/-! ## Steps -/

/-- The environment's part in a cache operation. -/
structure CacheEnv where
  bmap : Nat → Bool
  junk : CacheSlot
  stack : List.Vector UInt8 cacheVallen

/-- `cacheget`; any result but 0 ends the call. With a null `out` nothing is copied. -/
def cachegetStep (env : CacheEnv) (s : ProxyState) (pid : Nat) (c : CallArgs) : ProxyState :=
  let g := cachegetVal env.stack s.cache c.role c.prompt c.out (if c.outNull then 0 else c.outmax)
  let s := { s with cache := g.2.2 }
  if g.1 ≠ 0 then
    let s := if c.fd then s.write none (cacheHitLine (if c.roleNull then none else c.role)) else s
    s.goto pid (.returned (cstr g.2.1).length g.2.1)
  else s.goto pid (.proxylock c)

/-- `proxy_send`. -/
def sendStep (s : ProxyState) (pid : Nat) (c : CallArgs) : ProxyState :=
  if c.fd = false ∨ c.roleNull = true ∨ c.promptNull = true then s.goto pid (.unlock c none none)
  else
    { s.write s.nextReq (requestLine pid c.role c.prompt) with nextReq := s.nextReq + 1 }.goto pid
      (.recv c s.nextReq [])

/-- `proxy_recv` up to its next `read`; `none` while there is nothing to read. -/
def recvStep (s : ProxyState) (pid : Nat) (c : CallArgs) (req : Nat) (line : List UInt8) :
    Option ProxyState :=
  if c.outNull = true ∨ c.outmax ≤ 0 then some (s.goto pid (.unlock c (some req) none))
  else
    match s.toGuest with
    | [] => none
    | (b, reply) :: rest =>
      match recvByte pid line b with
      | .more line => some ({ s with toGuest := rest }.goto pid (.recv c req line))
      | .done payload =>
        let w := storePayload c.out payload c.outmax
        some ({ s with toGuest := rest }.goto pid (.unlock c (some req) (some ⟨w.1, w.2, reply⟩)))

/-- The next statement of a process in `proxy_call`; `none` if it has to wait. -/
def agentStep (env : CacheEnv) (s : ProxyState) (pid : Nat) : Option ProxyState :=
  match s.pc pid with
  | .returned .. => none
  | .cacheget c => some (cachegetStep env s pid c)
  | .proxylock c =>
    if s.holder = none then some ({ s with holder := some pid }.goto pid (.send c)) else none
  | .send c => some (sendStep s pid c)
  | .recv c req line => recvStep s pid c req line
  | .unlock c req r =>
    -- `holdingsleep` guards the release
    let s := { s with holder := if s.holder = some pid then none else s.holder }
    match r with
    | none => some (s.goto pid (.returned (-1) c.out))
    | some r => some (s.goto pid (.cacheset c req r))
  | .cacheset c _ r =>
    let cache := (cachesetVal env.bmap env.junk s.cache c.role c.prompt (.ofBytes r.out)).2
    some ({ s with cache := cache }.goto pid (.returned r.ret r.out))

/-- The daemon takes one byte; at the end of a request line the handler gives `result`. -/
def hostByte (result : Option (List UInt8)) (s : ProxyState) : Option ProxyState :=
  match s.toHost with
  | [] => none
  | (b, req) :: rest =>
    if b ≠ newline then some { s with toHost := rest, hostLine := s.hostLine ++ [b] }
    else
      match parseRequest s.hostLine with
      | none => some { s with toHost := rest, hostLine := [] }
      | some parsed =>
        let reply : Reply := ⟨req, parsed, result⟩
        some { s with
          toHost := rest
          hostLine := []
          toGuest := s.toGuest ++ (responseLine parsed.id reply.text).map (·, reply) }

inductive ProxyOp where
  | call (pid : Nat) (c : CallArgs)
  | agent (pid : Nat) (env : CacheEnv)
  | host (result : Option (List UInt8))
  | cacheclear (a0 : Nat)
  | reboot

/-- The system. A process enters `proxy_call` when it is in no other call; a reboot restarts the
guest and the daemon and keeps the disk. -/
def proxyNext (s : ProxyState) : ProxyOp → Option ProxyState
  | .call pid c =>
    match s.pc pid with
    | .returned .. => if pid < 2147483648 then some (s.goto pid (.cacheget c)) else none
    | _ => none
  | .agent pid env => agentStep env s pid
  | .host result => hostByte result s
  | .cacheclear a0 => some { s with cache := cacheStep s.cache (.clear (argint a0)) }
  | .reboot => some { ProxyState.init with
      cache := cacheStep s.cache .reboot, nextReq := s.nextReq }

/-! ## The lookup -/

/-- What a lookup does to the cache. -/
theorem cachegetStep_cache (env : CacheEnv) (s : ProxyState) (pid : Nat) (c : CallArgs) :
    (cachegetStep env s pid c).cache = s.cache ∨ (cachegetStep env s pid c).cache =
      cacheStep s.cache (.get c.role c.prompt env.stack.toList cacheVallen) := by
  have hval : ∀ outmax, (cachegetVal env.stack s.cache c.role c.prompt c.out outmax).2.2 = s.cache ∨
      (cachegetVal env.stack s.cache c.role c.prompt c.out outmax).2.2 =
        cacheStep s.cache (.get c.role c.prompt env.stack.toList cacheVallen) := by
    intro outmax
    unfold cachegetVal
    split
    · exact Or.inr rfl
    · exact Or.inl rfl
  have hcache : (cachegetStep env s pid c).cache = (cachegetVal env.stack s.cache c.role c.prompt
      c.out (if c.outNull then 0 else c.outmax)).2.2 := by
    simp only [cachegetStep]
    generalize (if c.outNull = true then 0 else c.outmax) = outmax
    split
    · split <;> rfl
    · rfl
  rw [hcache]
  exact hval _

/-- A call goes on to the lock exactly if its strings are within the limits and no record
answers. -/
theorem cachegetStep_pc_iff {env : CacheEnv} {s : ProxyState} {pid : Nat} {c : CallArgs} :
    (cachegetStep env s pid c).pc pid = .proxylock c ↔
      c.role.length < 16 ∧ c.prompt.length < 256 ∧
        hitRecord s.cache.st c.role c.prompt = none := by
  simp only [cachegetStep, ProxyState.goto]
  generalize (if c.outNull = true then 0 else c.outmax) = outmax
  have hret : (cachegetVal env.stack s.cache c.role c.prompt c.out outmax).1 = 0 ↔ _ :=
    cachegetVal_ret_zero_iff
  rw [← hret]
  split
  · next hhit => simp [hhit]
  · next hmiss => simp [not_not.mp hmiss]

/-! ## Requests on the way -/

/-- The requests the daemon will find, given its line buffer and the bytes behind it. -/
def requestsIn : List UInt8 → List (UInt8 × Option Nat) → List (Option Nat × ParsedRequest)
  | _, [] => []
  | line, (b, req) :: rest =>
    if b ≠ newline then requestsIn (line ++ [b]) rest
    else ((parseRequest line).map (req, ·)).toList ++ requestsIn [] rest

/-- The daemon's line buffer after these bytes. -/
def lineAfter : List UInt8 → List (UInt8 × Option Nat) → List UInt8
  | line, [] => line
  | line, (b, _) :: rest => lineAfter (if b ≠ newline then line ++ [b] else []) rest

theorem requestsIn_append (line : List UInt8) (xs ys : List (UInt8 × Option Nat)) :
    requestsIn line (xs ++ ys) = requestsIn line xs ++ requestsIn (lineAfter line xs) ys := by
  induction xs generalizing line with
  | nil => rfl
  | cons x xs ih =>
    obtain ⟨b, req⟩ := x
    by_cases hb : b = newline <;> simp [requestsIn, lineAfter, hb, ih]

theorem lineAfter_append (line : List UInt8) (xs ys : List (UInt8 × Option Nat)) :
    lineAfter line (xs ++ ys) = lineAfter (lineAfter line xs) ys := by
  induction xs generalizing line with
  | nil => rfl
  | cons x xs ih =>
    obtain ⟨b, req⟩ := x
    exact ih _

/-- A line that is written whole. -/
theorem requestsIn_line {text : List UInt8} (htext : newline ∉ text) (line : List UInt8)
    (req : Option Nat) :
    requestsIn line ((text ++ [newline]).map (·, req)) =
        ((parseRequest (line ++ text)).map (req, ·)).toList ∧
      lineAfter line ((text ++ [newline]).map (·, req)) = [] := by
  induction text generalizing line with
  | nil => simp [requestsIn, lineAfter]
  | cons b text ih =>
    have hb : b ≠ newline := fun h => htext (h ▸ List.mem_cons_self)
    have hrest := ih (fun h => htext (List.mem_cons_of_mem _ h)) (line ++ [b])
    simpa [requestsIn, lineAfter, hb] using hrest

/-! ## The lines of the guest -/

theorem splitTab_append {a : List UInt8} (ha : tab ∉ a) (b : List UInt8) :
    splitTab (a ++ tab :: b) = some (a, b) := by
  have hpass := bne_of_not_mem ha
  simp [splitTab, List.dropWhile_append_of_pos hpass, List.takeWhile_append_of_pos hpass]

theorem proxyAppendStr_of_fits {max : Nat} {buf s : List UInt8} (h : buf.length + s.length < max) :
    proxyAppendStr max buf s = buf ++ s := by
  rw [proxyAppendStr, List.take_of_length_le (by omega)]

/-- The text of a request line, without its newline. -/
def requestText (pid : Nat) (role prompt : CString) : List UInt8 :=
  proxyReqTag ++ tab :: (decimal pid ++ tab :: (role.bytes ++ tab :: prompt.bytes))

theorem length_requestText (pid : Nat) (role prompt : CString) :
    (requestText pid role prompt).length =
      12 + (decimal pid).length + role.length + prompt.length := by
  have htag : proxyReqTag.length = 9 := by decide
  simp [requestText, htag, CString.length]
  omega

/-- A line that fits the buffer of `proxy_send` is written whole. -/
theorem requestLine_of_fits {pid : Nat} {role prompt : CString}
    (hfits : (requestText pid role prompt).length < 640) :
    requestLine pid role prompt = requestText pid role prompt ++ [newline] := by
  have htag : proxyReqTag.length = 9 := by decide
  rw [length_requestText, CString.length, CString.length] at hfits
  have hint : proxyAppendInt (proxyReqTag ++ [tab]) pid = proxyReqTag ++ [tab] ++ decimal pid := by
    simp [proxyAppendInt]
  have hhead : proxyAppendStr 640 [] proxyReqTag = proxyReqTag := by decide
  rw [requestLine, hhead, hint, proxyAppendStr_of_fits (s := role.bytes) (by simp [htag]; omega),
    proxyAppendStr_of_fits (s := prompt.bytes) (by simp [htag]; omega), requestText]
  simp

theorem requestLine_eq {pid : Nat} {role prompt : CString} (hrole : role.length < 16)
    (hprompt : prompt.length < 256) :
    requestLine pid role prompt = requestText pid role prompt ++ [newline] := by
  have hid := length_decimal_le pid
  apply requestLine_of_fits
  rw [length_requestText]
  omega

theorem tab_not_mem_decimal (v : Nat) : tab ∉ decimal v := by
  intro h
  have := isDigit_of_mem_decimal h
  simp [tab, isDigit] at this

/-- The daemon reads off a request what the guest put in, if the role has no tab. -/
theorem parseRequest_requestText (pid : Nat) {role : CString} (hrole : tab ∉ role.bytes)
    (prompt : CString) :
    parseRequest (requestText pid role prompt) =
      some ⟨decimal pid, role.bytes, prompt.bytes⟩ := by
  have htag : proxyReqTag.length = 9 := by decide
  have htake : (requestText pid role prompt).take 10 = proxyReqTag ++ [tab] := by
    rw [requestText, List.take_append, htag, List.take_of_length_le (by omega)]
    rfl
  have hdrop : (requestText pid role prompt).drop 10 =
      decimal pid ++ tab :: (role.bytes ++ tab :: prompt.bytes) := by
    rw [requestText, List.drop_append, htag, List.drop_eq_nil_of_le (by omega)]
    rfl
  rw [parseRequest, if_pos htake, hdrop, splitTab_append (tab_not_mem_decimal pid)]
  simp [splitTab_append hrole]

theorem newline_not_mem_requestText {pid : Nat} {role prompt : CString}
    (hrole : newline ∉ role.bytes) (hprompt : newline ∉ prompt.bytes) :
    newline ∉ requestText pid role prompt := by
  have htag : newline ∉ proxyReqTag := by decide
  have htab : newline ≠ tab := by decide
  simp [requestText, htag, htab, newline_not_mem_decimal, hrole, hprompt]

/-- The marker of a hit is one line, and no request. -/
theorem cacheHitLine_eq {role : Option CString} (hrole : ∀ r ∈ role, newline ∉ r.bytes) :
    ∃ text, cacheHitLine role = text ++ [newline] ∧ newline ∉ text ∧ parseRequest text = none := by
  have hhead : proxyAppendStr 64 [] ((CString.lit "CACHE_HIT").bytes ++ [tab]) =
      (CString.lit "CACHE_HIT").bytes ++ [tab] := by decide
  refine ⟨_, rfl, ?_, ?_⟩
  · rw [hhead, proxyAppendStr]
    have hfixed : newline ∉ (CString.lit "CACHE_HIT").bytes ++ [tab] := by decide
    refine List.not_mem_append hfixed fun hmem => ?_
    cases role with
    | none => simp at hmem
    | some r => exact hrole r rfl (List.mem_of_mem_take hmem)
  · have hlen : ((CString.lit "CACHE_HIT").bytes ++ [tab]).length = 10 := by decide
    have htag : (CString.lit "CACHE_HIT").bytes ++ [tab] ≠ proxyReqTag ++ [tab] := by decide
    rw [hhead, proxyAppendStr, parseRequest, if_neg]
    rwa [← hlen, List.take_left]

/-! ## Concrete steps -/

/-- A call with role "r". -/
def callArgs (prompt : String) (outmax : Int) : CallArgs :=
  ⟨.lit "r", .lit prompt, List.replicate outmax.toNat 0, outmax, false, false, false, true⟩

/-- A step of a process, with free blocks on the disk and a clean stack. -/
def runs (pid : Nat) : ProxyOp := .agent pid ⟨fun _ => true, .zero, .replicate _ 0⟩

/-- The daemon takes a byte; the handler would return this text. -/
def replies (text : String) : ProxyOp := .host (some (CString.lit text).bytes)

end LiberalOS.Proxy
