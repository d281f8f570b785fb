import LiberalOS.Foundation.Execution
import LiberalOS.Foundation.Occurrence
import LiberalOS.Foundation.Utf8

/-!
# Waiting for a token on the serial console

`Xv6Channel.wait_for` of `host/proxy_pipe.py`. What a call has read behind its token stays in the
buffer for the next one. The buffer is searched only after a read that returned something, so a
token that is already there is not seen until more output arrives.

## Main results

* `tokens_found_iff` — the sessions in which every call finds what it has received, and that their
  results do not depend on how the output was cut into reads.
-/
namespace LiberalOS.Host
open Foundation

/-! ## The channel -/

/-- The buffer of the channel, and the results of the reads to come. An empty result stands for a
read that would block; behind the last one there is no output. -/
structure Channel where
  buf : List UInt8
  reads : List (List UInt8)

/-- A call, with the number of reads that its deadline leaves time for. -/
structure WaitCall where
  token : List UInt8
  polls : Nat

/-- The fields of the `TimeoutError`. -/
structure WaitTimeout where
  token : List UInt8
  tail : List Char
  deriving DecidableEq

/-- The last 240 bytes of the buffer go into the message. -/
def timeoutError (token buf : List UInt8) : WaitTimeout :=
  ⟨token, decodeReplace (buf.drop (buf.length - 240))⟩

/-- The polling loop. -/
def waitForLoop (token : List UInt8) :
    Nat → Channel → Except WaitTimeout (List Char) × Channel
  | 0, ch => (.error (timeoutError token ch.buf), ch)
  | polls + 1, ch =>
    match ch.reads with
    | [] => (.error (timeoutError token ch.buf), ch)
    | chunk :: reads =>
      if chunk = [] then waitForLoop token polls { ch with reads := reads }
      else
        let buf := ch.buf ++ chunk
        match cutAfter token buf with
        | some (seen, rest) => (.ok (decodeReplace seen), ⟨rest, reads⟩)
        | none => waitForLoop token polls ⟨buf, reads⟩

def waitFor (ch : Channel) (call : WaitCall) : Except WaitTimeout (List Char) × Channel :=
  waitForLoop call.token call.polls ch

/-- A session goes on after a timeout, with what was read so far. -/
def waitNext (ch : Channel) (call : WaitCall) : Option Channel := some (waitFor ch call).2

/-- The results of the calls of a session. -/
def waitResults : Channel → List WaitCall → List (Except WaitTimeout (List Char))
  | _, [] => []
  | ch, call :: calls => (waitFor ch call).1 :: waitResults (waitFor ch call).2 calls

/-! ## Statement -/

/-- The bytes a call has received by its deadline, if it goes on reading until then. -/
def Channel.received (ch : Channel) (polls : Nat) : List UInt8 :=
  ch.buf ++ (ch.reads.take polls).flatten

/-- All the bytes that are not yet behind a token. -/
def Channel.stream (ch : Channel) : List UInt8 := ch.buf ++ ch.reads.flatten

/-- The token is among the bytes received by the deadline. -/
def InTime (ch : Channel) (call : WaitCall) : Prop :=
  (cutAfter call.token (ch.received call.polls)).isSome = true

/-- A call whose token comes in time returns the text up to and including its first occurrence. -/
def FindsToken (ch : Channel) (call : WaitCall) : Prop :=
  ∀ seen rest, cutAfter call.token (ch.received call.polls) = some (seen, rest) →
    (waitFor ch call).1 = .ok (decodeReplace seen)

/-- The token is not in the buffer already, or some output follows before the deadline. -/
def OutputFollows (ch : Channel) (call : WaitCall) : Prop :=
  cutAfter call.token ch.buf = none ∨ ∃ chunk ∈ ch.reads.take call.polls, chunk ≠ []

/-- What the calls for these tokens return by the bytes alone: each cuts off the text up to and
including the first occurrence of its token. -/
def segments : List (List UInt8) → List UInt8 → List (Option (List Char))
  | [], _ => []
  | token :: tokens, stream =>
    match cutAfter token stream with
    | some (seen, rest) => some (decodeReplace seen) :: segments tokens rest
    | none => none :: segments tokens stream

/-! ## One call -/

/-- A text that is returned is cut off the front of the stream. -/
theorem waitForLoop_ok {token : List UInt8} {polls : Nat} {ch : Channel} {text : List Char}
    (h : (waitForLoop token polls ch).1 = .ok text) :
    ∃ seen, cutAfter token ch.stream = some (seen, (waitForLoop token polls ch).2.stream) ∧
      text = decodeReplace seen := by
  fun_induction waitForLoop token polls ch with
  | case1 ch => cases h
  | case2 polls ch hreads => cases h
  | case3 polls ch reads hreads ih =>
    have hstream : ch.stream = (⟨ch.buf, reads⟩ : Channel).stream := by
      simp [Channel.stream, hreads]
    rw [hstream]
    exact ih h
  | case4 polls ch chunk reads hreads hne buf seen rest hcut =>
    have hstream : ch.stream = buf ++ reads.flatten := by
      simp [Channel.stream, hreads, buf]
    rw [hstream, cutAfter_append hcut]
    exact ⟨seen, rfl, by simpa using h.symm⟩
  | case5 polls ch chunk reads hreads hne buf hcut ih =>
    have hstream : ch.stream = (⟨buf, reads⟩ : Channel).stream := by
      simp [Channel.stream, hreads, buf]
    rw [hstream]
    exact ih h

/-- While the token is not in the buffer, the loop finds it as soon as it is complete. -/
theorem waitForLoop_of_absent {token : List UInt8} {polls : Nat} {ch : Channel}
    (habsent : cutAfter token ch.buf = none) {seen rest : List UInt8}
    (h : cutAfter token (ch.received polls) = some (seen, rest)) :
    (waitForLoop token polls ch).1 = .ok (decodeReplace seen) := by
  fun_induction waitForLoop token polls ch with
  | case1 ch => simp [Channel.received, habsent] at h
  | case2 polls ch hreads => simp [Channel.received, hreads, habsent] at h
  | case3 polls ch reads hreads ih =>
    refine ih habsent ?_
    simpa [Channel.received, hreads] using h
  | case4 polls ch chunk reads hreads hne buf seen' rest' hcut =>
    have hmore : ch.received (polls + 1) = buf ++ (reads.take polls).flatten := by
      simp [Channel.received, hreads, buf]
    rw [hmore, cutAfter_append hcut] at h
    obtain ⟨rfl, -⟩ := Prod.mk.inj (Option.some.inj h)
    rfl
  | case5 polls ch chunk reads hreads hne buf hcut ih =>
    refine ih hcut ?_
    simpa [Channel.received, hreads, buf] using h

/-- A token that is in the buffer is found with the next output, and only then. -/
theorem waitForLoop_of_present {token : List UInt8} {polls : Nat} {ch : Channel}
    {seen rest : List UInt8} (hpresent : cutAfter token ch.buf = some (seen, rest)) :
    (waitForLoop token polls ch).1 =
      if ∃ chunk ∈ ch.reads.take polls, chunk ≠ [] then .ok (decodeReplace seen)
      else .error (timeoutError token ch.buf) := by
  fun_induction waitForLoop token polls ch with
  | case1 ch => simp
  | case2 polls ch hreads => simp [hreads]
  | case3 polls ch reads hreads ih =>
    rw [ih hpresent]
    simp [hreads]
  | case4 polls ch chunk reads hreads hne buf seen' rest' hcut =>
    rw [cutAfter_append hpresent] at hcut
    obtain ⟨rfl, -⟩ := Prod.mk.inj (Option.some.inj hcut)
    rw [if_pos ⟨chunk, by simp [hreads], hne⟩]
  | case5 polls ch chunk reads hreads hne buf hcut ih =>
    rw [cutAfter_append hpresent] at hcut
    cases hcut

theorem findsToken_iff (ch : Channel) (call : WaitCall) :
    FindsToken ch call ↔ OutputFollows ch call := by
  cases hbuf : cutAfter call.token ch.buf with
  | none => exact iff_of_true (fun _ _ => waitForLoop_of_absent hbuf) (Or.inl hbuf)
  | some r =>
    obtain ⟨seen, rest⟩ := r
    have hreceived : cutAfter call.token (ch.received call.polls) =
        some (seen, rest ++ (ch.reads.take call.polls).flatten) := cutAfter_append hbuf _
    have hresult := @waitForLoop_of_present call.token call.polls ch seen rest hbuf
    constructor
    · intro h
      have hok := h seen _ hreceived
      rw [waitFor, hresult] at hok
      split at hok
      · next houtput => exact Or.inr houtput
      · cases hok
    · rintro (hnone | houtput) seen' rest' hcut
      · simp [hnone] at hbuf
      · rw [hreceived] at hcut
        obtain ⟨rfl, -⟩ := Prod.mk.inj (Option.some.inj hcut)
        rw [waitFor, hresult, if_pos houtput]

/-! ## Sessions -/

/-- The results of a session in which every token comes in time and is found, by the bytes alone. -/
theorem waitResults_eq {ch : Channel} {calls : List WaitCall}
    (hfinds : Along waitNext (fun s call _ => FindsToken s call) ch calls)
    (hintime : Along waitNext (fun s call _ => InTime s call) ch calls) :
    (waitResults ch calls).map Except.toOption =
      segments (calls.map WaitCall.token) ch.stream := by
  induction calls generalizing ch with
  | nil => rfl
  | cons call calls ih =>
    obtain ⟨hfind, hfinds⟩ := hfinds _ rfl
    obtain ⟨htime, hintime⟩ := hintime _ rfl
    obtain ⟨⟨seen, rest⟩, hcut⟩ := Option.isSome_iff_exists.mp htime
    have hok := hfind seen rest hcut
    obtain ⟨seen', hstream, htext⟩ := waitForLoop_ok hok
    have hstream' : cutAfter call.token ch.stream = some (seen', (waitFor ch call).2.stream) :=
      hstream
    rw [waitResults, List.map_cons, List.map_cons, segments, hstream', ih hfinds hintime, hok,
      htext]
    rfl

theorem along_findsToken_iff {ch : Channel} {calls : List WaitCall} :
    Along waitNext (fun s call _ => FindsToken s call) ch calls ↔
      Along waitNext (fun s call _ => OutputFollows s call) ch calls :=
  ⟨Along.mono fun s call _ h => (findsToken_iff s call).mp h,
    Along.mono fun s call _ h => (findsToken_iff s call).mpr h⟩

/-- In every session: each call finds a token that comes in time exactly if, at each call, the token
is not in the buffer already or output follows. If so, and all tokens come in time, the results are
determined by the bytes of the stream, however they are cut into reads. -/
theorem tokens_found_iff (ch : Channel) (calls : List WaitCall) :
    (Along waitNext (fun s call _ => FindsToken s call) ch calls ↔
      Along waitNext (fun s call _ => OutputFollows s call) ch calls) ∧
    (Along waitNext (fun s call _ => OutputFollows s call) ch calls →
      Along waitNext (fun s call _ => InTime s call) ch calls →
        (waitResults ch calls).map Except.toOption =
          segments (calls.map WaitCall.token) ch.stream) :=
  ⟨along_findsToken_iff,
    fun hfollows hintime => waitResults_eq (along_findsToken_iff.mpr hfollows) hintime⟩

instance (ch : Channel) (call : WaitCall) : Decidable (OutputFollows ch call) :=
  inferInstanceAs (Decidable (_ ∨ _))

instance (ch : Channel) (call : WaitCall) : Decidable (InTime ch call) :=
  inferInstanceAs (Decidable (_ = _))

/-- Two calls, for "a" and for "b". -/
def twoCalls : List WaitCall := [⟨[97], 3⟩, ⟨[98], 3⟩]

theorem separate_reads_found :
    (waitResults ⟨[], [[97], [], [99, 98]]⟩ twoCalls).map Except.toOption =
      [some ['a'], some ['c', 'b']] := by
  have h := (tokens_found_iff ⟨[], [[97], [], [99, 98]]⟩ twoCalls).2 (by decide) (by decide)
  rw [h]
  decide

/-- When both tokens come in one read, the second call does not see its own. -/
theorem token_in_buffer_missed : ¬ ∀ (ch : Channel) (calls : List WaitCall),
    Along waitNext (fun s call _ => FindsToken s call) ch calls := by
  intro h
  have hfollows := along_findsToken_iff.mp (h ⟨[], [[97, 99, 98]]⟩ twoCalls)
  revert hfollows
  decide

end LiberalOS.Host
