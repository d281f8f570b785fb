import LiberalOS.Kernel.LogSpace

/-!
# The log gets on

A process that commits or recovers while nobody else has a buffer gets through: `bread` finds a
buffer for each of its blocks and nothing makes it wait. Together with `run_refines` this says what
`end_op` and `recover_from_log` have done when they return.

## Main results

* `commit_completes` — the last `end_op` of a group puts its blocks on the disk.
* `recovery_completes` — after power on the contents that the disk stands for are read again.
-/
namespace LiberalOS.Kernel.Log
open Foundation Bio

/-- A step of the process that commits or recovers. -/
def Work (p : Nat) (_ : State) (l : Label) (_ : State) : Prop :=
  match l with
  | .bget q _ | .acquire q _ | .releasesleep q _ | .unget q _ => q = p
  | .writeLog q _ _ | .writeHead q _ | .install q _ _ | .erase q _ | .readHead q _ => q = p
  | .finish => True
  | _ => False

section
variable {s t : State} {a : AtomicStore Block} {p b c : Nat} {i j : Fin nbuf}

/-- Two states that differ in the cache only. -/
def State.SameLog (s t : State) : Prop := t = { s with bio := t.bio }

theorem State.SameLog.trans {u : State} (h : s.SameLog t) (h' : t.SameLog u) : s.SameLog u := by
  unfold State.SameLog at *
  rw [h', h]

theorem State.SameLog.pins (h : s.SameLog t) : t.pins = s.pins := by
  rw [h]
  rfl

theorem step_bget {bio : Bio.State} (h : Bio.bget s.bio p rootdev b = some bio) :
    step s (.bget p b) = some { s with bio } := by
  rw [step, h, Option.map_some]

theorem step_acquire {bio : Bio.State} (h : Bio.acquire s.bio p i = some bio) :
    step s (.acquire p i) = some { s with bio } := by
  rw [step, h, Option.map_some]

theorem step_releasesleep {bio : Bio.State} (h : Bio.releasesleep s.bio p i = some bio) :
    step s (.releasesleep p i) = some { s with bio } := by
  rw [step, h, Option.map_some]

theorem step_unget {bio : Bio.State} (h : Bio.unget s.bio p i = some bio) :
    step s (.unget p i) = some { s with bio } := by
  rw [step, h, Option.map_some]

/-- A process reads a block that nobody uses; it is pinned, or there is a free buffer. -/
theorem bread_run (h : Inv s a) (hroom : b ∈ s.pins ∨ s.pins.length + s.bio.refs.length < nbuf)
    (hfree : ∀ q i, (q, i) ∈ s.bio.refs → (s.bio.buf i).blockno ≠ b) (p : Nat) :
    ∃ i t, Reaches step (Work p) s t ∧ Inv t a ∧ s.SameLog t ∧
      t.bio.refs = (p, i) :: s.bio.refs ∧ t.Holds p i b ∧
      ∀ q j c, s.Holds q j c → t.Holds q j c := by
  obtain ⟨bio, hbio⟩ := Option.isSome_iff_exists.mp
    (hroom.elim (h.coherent.bget_isSome_of_mem p) fun hroom => h.coherent.bget_of_room
      ((Nat.add_le_add_left s.bio.card_inUse_le _).trans_lt hroom) p b)
  obtain ⟨i, x, rfl, hx⟩ := bget_cases h.coherent.mem_lru hbio
  have hunlocked : (s.bio.buf i).lock = none := by
    rw [Option.eq_none_iff_forall_ne_some]
    intro q hq
    have href := (h.coherent.held i q hq).1
    obtain ⟨-, hblockno, -⟩ | ⟨hzero, -⟩ := hx
    · exact hfree q i href hblockno
    · exact h.coherent.refcnt_ne_zero href hzero
  have hxs : x.lock = none ∧ x.blockno = b := by grind
  obtain ⟨bio', hbio'⟩ := Option.isSome_iff_exists.mp (show (Bio.acquire
    { s.bio.setBuf i x with refs := (p, i) :: s.bio.refs } p i).isSome by
      simp [Bio.acquire, hxs.1])
  have hget := step_bget hbio
  have hacquire := step_acquire (s := { s with bio := _ }) hbio'
  obtain ⟨-, -, rfl⟩ := acquire_eq_some hbio'
  refine ⟨i, _, .head hget rfl (.head hacquire rfl (.refl _)), (h.bget hget).acquire hacquire, rfl,
    rfl, ?_, ?_⟩
  · simp [State.Holds, hxs.2]
  · intro q j c hj
    have hji : j ≠ i := by
      rintro rfl
      simp [State.Holds, hunlocked] at hj
    simpa [State.Holds, Bio.State.setBuf, Function.update_of_ne hji] using hj

/-- A process gives a buffer back. -/
theorem brelse_run (h : Inv s a) (hi : s.Holds p i b) :
    ∃ t, Reaches step (Work p) s t ∧ Inv t a ∧ s.SameLog t ∧
      t.bio.refs = s.bio.refs.erase (p, i) ∧ ∀ q j c, j ≠ i → s.Holds q j c → t.Holds q j c := by
  obtain ⟨hlock, -⟩ := hi
  have href := (h.coherent.held i p hlock).1
  obtain ⟨bio, hbio⟩ := Option.isSome_iff_exists.mp
    (show (Bio.releasesleep s.bio p i).isSome by simp [Bio.releasesleep, hlock])
  have hrelease := step_releasesleep hbio
  obtain ⟨-, rfl⟩ := releasesleep_eq_some hbio
  obtain ⟨bio', hbio'⟩ := Option.isSome_iff_exists.mp (show (Bio.unget
    (s.bio.setBuf i { s.bio.buf i with lock := none }) p i).isSome by simp [Bio.unget, href])
  have hunget := step_unget (s := { s with bio := _ }) hbio'
  obtain ⟨-, -, rfl⟩ := unget_eq_some hbio'
  refine ⟨_, .head hrelease rfl (.head hunget rfl (.refl _)),
    (h.releasesleep hrelease).unget hunget, rfl, rfl, ?_⟩
  intro q j c hj hold
  simpa [State.Holds, Bio.State.setBuf, Function.update_of_ne hj] using hold

/-- A process that has no other buffer reads two blocks. -/
theorem pair_run (h : Inv s a) (hrefs : s.bio.refs = []) (hroom : s.pins.length < nbuf)
    (hc : c ∈ s.pins ∨ s.pins.length + 1 < nbuf) (hbc : b ≠ c) (p : Nat) :
    ∃ i j t, Reaches step (Work p) s t ∧ Inv t a ∧ s.SameLog t ∧
      t.bio.refs = [(p, j), (p, i)] ∧ t.Holds p i b ∧ t.Holds p j c := by
  obtain ⟨i, u, hu, hinv, hsame, hurefs, hi, -⟩ :=
    bread_run (b := b) h (Or.inr (by rwa [hrefs])) (by simp [hrefs]) p
  obtain ⟨j, t, ht, hinv', hsame', htrefs, hj, hkeep⟩ :=
    bread_run (b := c) hinv (by rw [hurefs, hsame.pins, hrefs]; exact hc)
      (fun q k hk => by
        obtain ⟨rfl, rfl⟩ : q = p ∧ k = i := by simpa [hurefs, hrefs] using hk
        exact hi.2 ▸ hbc) p
  exact ⟨i, j, t, hu.trans ht, hinv', hsame.trans hsame', by rw [htrefs, hurefs, hrefs],
    hkeep p i b hi, hj⟩

/-- It gives both back. -/
theorem unpair_run (h : Inv s a) (hrefs : s.bio.refs = [(p, j), (p, i)]) (hi : s.Holds p i b)
    (hj : s.Holds p j c) (hbc : b ≠ c) :
    ∃ t, Reaches step (Work p) s t ∧ Inv t a ∧ s.SameLog t ∧ t.bio.refs = [] := by
  have hij : i ≠ j := by
    rintro rfl
    exact hbc (hi.2.symm.trans hj.2)
  obtain ⟨u, hu, hinv, hsame, hurefs, hkeep⟩ := brelse_run h hj
  obtain ⟨t, ht, hinv', hsame', htrefs, -⟩ := brelse_run hinv (hkeep p i b hij hi)
  exact ⟨t, hu.trans ht, hinv', hsame.trans hsame', by simp [htrefs, hurefs, hrefs]⟩

/-! ## The loops -/

theorem write_lock (s : State) (i j : Fin nbuf) (v : Block) :
    ((s.write i v).buf j).lock = (s.bio.buf j).lock := by
  grind [State.write]

theorem write_blockno (s : State) (i j : Fin nbuf) (v : Block) :
    ((s.write i v).buf j).blockno = (s.bio.buf j).blockno := by
  grind [State.write]

/-- An iteration of the loop of `write_log`. -/
theorem writeLog_run {tail : Nat} (h : Inv s a) (hphase : s.phase = .writeLog tail)
    (hlt : tail < s.lh.length) (hrefs : s.bio.refs = []) (hroom : s.lh.length < nbuf) (p : Nat) :
    ∃ t, Reaches step (Work p) s t ∧ Inv t a ∧ t.phase = .writeLog (tail + 1) ∧ t.lh = s.lh ∧
      t.bio.refs = [] := by
  have hinv := h.phase
  simp only [PhaseInv, hphase] at hinv
  have hpins : s.pins = s.lh := by simp only [State.pins, hphase]
  have hget : s.lh[tail]? = some s.lh[tail] := List.getElem?_eq_getElem hlt
  have hne : s.start + tail + 1 ≠ s.lh[tail] := by
    rw [slot_eq]
    exact ((hinv.1.home _ (List.getElem_mem hlt)).ne_slot
      (show tail + 1 < logblocks from Nat.lt_of_le_of_lt hlt hroom)).symm
  obtain ⟨i, j, u, hu, huinv, hsame, hurefs, hi, hj⟩ :=
    pair_run h hrefs (by rwa [hpins]) (Or.inl (by rw [hpins]; exact List.getElem_mem hlt)) hne p
  have hstep : step u (.writeLog p i j) = some { u with
      bio := u.write i (u.bio.buf j).data, phase := .writeLog (tail + 1) } := by
    rw [hsame] at hi hj ⊢
    simp only [step, hphase, hget, Option.bind_some]
    exact if_pos ⟨hi, hj⟩
  have hvinv := huinv.writeLog hstep
  obtain ⟨t, ht, htinv, hsame', htrefs⟩ := unpair_run (i := i) (j := j) hvinv hurefs
    ⟨(write_lock _ _ _ _).trans hi.1, (write_blockno _ _ _ _).trans hi.2⟩
    ⟨(write_lock _ _ _ _).trans hj.1, (write_blockno _ _ _ _).trans hj.2⟩ hne
  refine ⟨t, hu.trans (.head hstep rfl ht), htinv, ?_, ?_, htrefs⟩
  · rw [hsame']
  · rw [hsame', hsame]

theorem writeLog_runs {tail : Nat} (h : Inv s a) (hphase : s.phase = .writeLog tail)
    (hle : tail ≤ s.lh.length) (hrefs : s.bio.refs = []) (hroom : s.lh.length < nbuf) (p : Nat) :
    ∃ t, Reaches step (Work p) s t ∧ Inv t a ∧ t.phase = .writeLog t.lh.length ∧ t.lh = s.lh ∧
      t.bio.refs = [] := by
  induction hn : s.lh.length - tail generalizing s tail with
  | zero =>
    obtain rfl : tail = s.lh.length := by omega
    exact ⟨s, .refl s, h, hphase, rfl, hrefs⟩
  | succ n ih =>
    obtain ⟨u, hu, huinv, huphase, hulh, hurefs⟩ :=
      writeLog_run h hphase (by omega) hrefs hroom p
    obtain ⟨t, ht, htinv, htphase, htlh, htrefs⟩ :=
      ih huinv huphase (by rw [hulh]; omega) hurefs (hulh ▸ hroom) (by rw [hulh]; omega)
    exact ⟨t, hu.trans ht, htinv, htphase, htlh.trans hulh, htrefs⟩

/-- An iteration of the loop of `install_trans`. -/
theorem install_run {recovering : Bool} {tail : Nat} (h : Inv s a)
    (hphase : s.phase = .install recovering tail) (hlt : tail < s.lh.length)
    (hrefs : s.bio.refs = []) (p : Nat) :
    ∃ t, Reaches step (Work p) s t ∧ Inv t a ∧ t.phase = .install recovering (tail + 1) ∧
      t.lh = s.lh ∧ t.bio.refs = [] := by
  have hinv := h.phase
  simp only [PhaseInv, hphase] at hinv
  have hlen : s.lh.length < nbuf := hinv.1.length_lt
  have hpins : s.pins.length ≤ s.lh.length := by
    unfold State.pins
    split <;> simp
  -- a committed block is pinned still, and in the recovery nothing is
  have hdst : s.lh[tail] ∈ s.pins ∨ s.pins.length + 1 < nbuf := by
    simp only [State.pins, hphase]
    cases recovering with
    | true => exact Or.inr (show ([] : List Nat).length + 1 < nbuf by decide)
    | false =>
      left
      show s.lh[tail] ∈ s.lh.drop tail
      rw [List.drop_eq_getElem_cons hlt]
      exact List.mem_cons_self
  have hget : s.lh[tail]? = some s.lh[tail] := List.getElem?_eq_getElem hlt
  have hne : s.start + tail + 1 ≠ s.lh[tail] := by
    rw [slot_eq]
    exact ((hinv.1.home _ (List.getElem_mem hlt)).ne_slot
      (show tail + 1 < logblocks from Nat.lt_of_le_of_lt hlt hlen)).symm
  obtain ⟨i, j, u, hu, huinv, hsame, hurefs, hi, hj⟩ :=
    pair_run h hrefs (hpins.trans_lt hlen) hdst hne p
  obtain ⟨v, hstep⟩ : ∃ v, step u (.install p i j) = some v := by
    rw [hsame] at hi hj ⊢
    simp only [step, hphase, hget, Option.bind_some]
    exact ⟨_, if_pos ⟨hi, hj⟩⟩
  have hvinv := huinv.install hstep
  obtain ⟨hvrefs, hvlock, hvphase, hvlh⟩ : v.bio.refs = u.bio.refs ∧
      (∀ k, (v.bio.buf k).lock = (u.bio.buf k).lock ∧
        (v.bio.buf k).blockno = (u.bio.buf k).blockno) ∧
      v.phase = .install recovering (tail + 1) ∧ v.lh = s.lh := by
    rw [hsame] at hstep
    simp only [step, hphase, hget, Option.bind_some, Option.ite_none_right_eq_some,
      Option.some.injEq] at hstep
    obtain ⟨-, rfl⟩ := hstep
    cases recovering <;> grind [State.write, bunpin]
  obtain ⟨t, ht, htinv, hsame', htrefs⟩ := unpair_run (i := i) (j := j) hvinv (hvrefs.trans hurefs)
    ⟨(hvlock i).1.trans hi.1, (hvlock i).2.trans hi.2⟩
    ⟨(hvlock j).1.trans hj.1, (hvlock j).2.trans hj.2⟩ hne
  refine ⟨t, hu.trans (.head hstep rfl ht), htinv, ?_, ?_, htrefs⟩
  · rw [hsame', hvphase]
  · rw [hsame', hvlh]

theorem install_runs {recovering : Bool} {tail : Nat} (h : Inv s a)
    (hphase : s.phase = .install recovering tail) (hle : tail ≤ s.lh.length)
    (hrefs : s.bio.refs = []) (p : Nat) :
    ∃ t, Reaches step (Work p) s t ∧ Inv t a ∧ t.phase = .install recovering t.lh.length ∧
      t.bio.refs = [] := by
  induction hn : s.lh.length - tail generalizing s tail with
  | zero =>
    obtain rfl : tail = s.lh.length := by omega
    exact ⟨s, .refl s, h, hphase, hrefs⟩
  | succ n ih =>
    obtain ⟨u, hu, huinv, huphase, hulh, hurefs⟩ :=
      install_run h hphase (by omega) hrefs p
    obtain ⟨t, ht, htinv, htphase, htrefs⟩ :=
      ih huinv huphase (by rw [hulh]; omega) hurefs (by rw [hulh]; omega)
    exact ⟨t, hu.trans ht, htinv, htphase, htrefs⟩

/-- The end of a commit or of the recovery. -/
theorem erase_run {recovering : Bool} (h : Inv s a)
    (hphase : s.phase = .install recovering s.lh.length) (hrefs : s.bio.refs = []) (p : Nat) :
    ∃ t, Reaches step (Work p) s t ∧ Inv t a ∧ t.phase = .idle ∧ t.ops = [] ∧ t.bio.refs = [] := by
  have hinv := h.phase
  simp only [PhaseInv, hphase] at hinv
  have hpins : s.pins = [] := by
    simp only [State.pins, hphase]
    cases recovering <;> simp
  obtain ⟨i, u, hu, huinv, hsame, hurefs, hi, -⟩ :=
    bread_run (b := s.start) h (Or.inr (by simp [hpins, hrefs])) (by simp [hrefs]) p
  have hstep : step u (.erase p i) = some { u with
      bio := u.write i (Log.writeHead [] (u.bio.buf i).data), lh := [], phase := .done } := by
    rw [hsame] at hi ⊢
    simp only [step, hphase]
    exact if_pos ⟨trivial, hi⟩
  have hvinv := huinv.erase hstep
  obtain ⟨w, hw, hwinv, hsame', hwrefs, -⟩ := brelse_run (i := i) hvinv
    ⟨(write_lock _ _ _ _).trans hi.1, (write_blockno _ _ _ _).trans hi.2⟩
  have hfinish : step w .finish = some { w with phase := .idle } := by
    rw [hsame']
    simp [step]
  have hops : u.ops = [] := by
    rw [hsame]
    exact hinv.2.2.1
  refine ⟨_, hu.trans (.head hstep rfl (hw.trans (.head hfinish trivial (.refl _)))),
    hwinv.finish hfinish, rfl, ?_, ?_⟩
  · rw [hsame']
    exact hops
  · exact hwrefs.trans (by simp [State.write, hurefs, hrefs])

/-- The header is written once the blocks are in the log. -/
theorem writeHead_run (h : Inv s a) (hphase : s.phase = .writeLog s.lh.length)
    (hrefs : s.bio.refs = []) (hroom : s.lh.length < nbuf) (p : Nat) :
    ∃ t, Reaches step (Work p) s t ∧ Inv t { a with durable := a.current } ∧
      t.phase = .install false 0 ∧ t.lh = s.lh ∧ t.bio.refs = [] := by
  have hpins : s.pins = s.lh := by simp only [State.pins, hphase]
  obtain ⟨i, u, hu, huinv, hsame, hurefs, hi, -⟩ :=
    bread_run (b := s.start) h (Or.inr (by rwa [hpins, hrefs])) (by simp [hrefs]) p
  have hstep : step u (.writeHead p i) = some { u with
      bio := u.write i (Log.writeHead u.lh (u.bio.buf i).data), phase := .install false 0 } := by
    rw [hsame] at hi ⊢
    exact if_pos ⟨hphase, hi⟩
  obtain ⟨-, hvinv⟩ := huinv.writeHead hstep
  obtain ⟨t, ht, htinv, hsame', htrefs, -⟩ := brelse_run (i := i) hvinv
    ⟨(write_lock _ _ _ _).trans hi.1, (write_blockno _ _ _ _).trans hi.2⟩
  refine ⟨t, hu.trans (.head hstep rfl ht), htinv, ?_, ?_, ?_⟩
  · rw [hsame']
  · rw [hsame', hsame]
  · exact htrefs.trans (by simp [State.write, hurefs, hrefs])

/-- The recovery reads the header. -/
theorem readHead_run (h : Inv s a) (hphase : s.phase = .readHead) (hrefs : s.bio.refs = [])
    (p : Nat) :
    ∃ t, Reaches step (Work p) s t ∧ Inv t a ∧ t.phase = .install true 0 ∧ t.bio.refs = [] := by
  have hpins : s.pins = [] := by simp only [State.pins, hphase]
  obtain ⟨i, u, hu, huinv, hsame, hurefs, hi, -⟩ :=
    bread_run (b := s.start) h (Or.inr (by simp [hpins, hrefs])) (by simp [hrefs]) p
  have hstep : step u (.readHead p i) = some { u with
      lh := Log.readHead (u.bio.buf i).data, phase := .install true 0 } := by
    rw [hsame] at hi ⊢
    exact if_pos ⟨hphase, hi⟩
  have hvinv := huinv.readHead hstep
  obtain ⟨t, ht, htinv, hsame', htrefs, -⟩ := brelse_run (i := i) (b := s.start) hvinv hi
  refine ⟨t, hu.trans (.head hstep rfl ht), htinv, ?_, ?_⟩
  · rw [hsame']
  · exact htrefs.trans (by simp [hurefs, hrefs])

end

/-! ## Commits and recoveries -/

section
variable {start : Nat} {disk : Nat → Block} {ls : List Label} {s : State}

/-- Between commits the disk has the contents that the store keeps. -/
theorem Inv.disk_of_rest {a : AtomicStore Block} (h : Inv s a) (hidle : s.phase = .idle)
    {b : Nat} (hb : (layout s.start).Home b) : s.bio.disk b = a.durable b := by
  have hinv := h.phase
  simp only [PhaseInv, hidle] at hinv
  rw [← h.durable b hb]
  exact (LogLayout.recovered_of_empty (L := layout s.start) hinv.2.1).symm

/-- Without operations the log is empty, and so is its header on the disk. -/
theorem Inv.empty_of_rest {a : AtomicStore Block} (h : Inv s a) (hidle : s.phase = .idle)
    (hops : s.ops = []) : s.lh = [] ∧ s.header = [] := by
  have hinv := h.phase
  simp only [PhaseInv, hidle] at hinv
  exact ⟨hinv.2.2 hops, hinv.2.1⟩

/-- While nobody else has a buffer, the commit of a log that is not full runs to its end. The log is
then empty, in memory and on the disk, and what could be read before is on the disk. -/
theorem commit_completes (hfits : (layout start).Fits (readHead (disk start)))
    (hs : exec step (boot start disk) ls = some s)
    (hexp : Along step Expected (boot start disk) ls) (hphase : s.phase = .writeLog 0)
    (hrefs : s.bio.refs = []) (hroom : s.lh.length < logblocks) (p : Nat) :
    ∃ t, Reaches step (Work p) s t ∧ t.phase = .idle ∧ t.ops = [] ∧ t.lh = [] ∧ t.header = [] ∧
      t.bio.refs = [] ∧ ∀ b, (layout start).Home b → t.bio.disk b = s.bio.contents b := by
  obtain ⟨a, h⟩ := inv_of_exec hfits hs hexp
  obtain ⟨u, hu, huinv, huphase, hulh, hurefs⟩ :=
    writeLog_runs h hphase (Nat.zero_le _) hrefs hroom p
  obtain ⟨v, hv, hvinv, hvphase, hvlh, hvrefs⟩ :=
    writeHead_run huinv huphase hurefs (hulh ▸ hroom) p
  obtain ⟨w, hw, hwinv, hwphase, hwrefs⟩ :=
    install_runs hvinv hvphase (Nat.zero_le _) hvrefs p
  obtain ⟨t, ht, htinv, htphase, htops, htrefs⟩ := erase_run hwinv hwphase hwrefs p
  have hreach := hu.trans (hv.trans (hw.trans ht))
  obtain ⟨hlh, hheader⟩ := htinv.empty_of_rest htphase htops
  refine ⟨t, hreach, htphase, htops, hlh, hheader, htrefs, fun b hb => ?_⟩
  obtain ⟨ms, hms, -⟩ := hreach
  have hstart : s.start = start := start_of_exec hs
  have htstart : t.start = start := (start_of_exec hms).trans hstart
  rw [htinv.disk_of_rest htphase (htstart ▸ hb),
    h.current (by simp [State.Mounted, hphase]) b (hstart ▸ hb)]

theorem commit_completes_crashRun :
    ∃ s t, exec step (boot 2 fun _ _ => 0) (crashRun.take 14) = some s ∧
      Reaches step (Work 1) s t ∧ t.bio.disk 100 0 = 7 := by
  have hend : (exec step (boot 2 fun _ _ => 0) (crashRun.take 14)).map
      (fun s => (s.phase, s.bio.refs.length, s.lh.length, s.bio.contents 100 0)) =
        some (.writeLog 0, 0, 1, 7) := by
    decide +kernel
  obtain ⟨s, hs, hend⟩ := Option.map_eq_some_iff.mp hend
  simp only [Prod.mk.injEq, List.length_eq_zero_iff] at hend
  obtain ⟨hphase, hrefs, hlen, hcontents⟩ := hend
  obtain ⟨t, ht, -, -, -, -, -, hdisk⟩ := commit_completes fits_zero hs (by decide +kernel) hphase
    hrefs (by rw [hlen]; decide) 1
  exact ⟨s, t, hs, ht, by rw [hdisk 100 (by decide), hcontents]⟩

/-- After power on the recovery runs to its end, whatever an interrupted commit or recovery has left
behind, and the disk then has the contents that it stood for. -/
theorem recovery_completes (hfits : (layout start).Fits (readHead (disk start))) (p : Nat) :
    ∃ t, Reaches step (Work p) (boot start disk) t ∧ t.phase = .idle ∧ t.bio.refs = [] ∧
      ∀ b, (layout start).Home b → t.bio.disk b = (layout start).recovered disk b := by
  obtain ⟨u, hu, huinv, huphase, hurefs⟩ := readHead_run (.boot hfits) rfl rfl p
  obtain ⟨v, hv, hvinv, hvphase, hvrefs⟩ := install_runs huinv huphase (Nat.zero_le _) hurefs p
  obtain ⟨t, ht, htinv, htphase, htops, htrefs⟩ := erase_run hvinv hvphase hvrefs p
  have hreach := hu.trans (hv.trans ht)
  refine ⟨t, hreach, htphase, htrefs, fun b hb => ?_⟩
  obtain ⟨ms, hms, -⟩ := hreach
  have htstart : t.start = start := start_of_exec hms
  exact htinv.disk_of_rest htphase (htstart ▸ hb)

/-- A disk with a committed block in the log. -/
theorem recovery_completes_committed :
    ∃ t, Reaches step (Work 0) (boot 2 (Function.update (Function.update (fun _ _ => 0) 2
      (writeHead [100] fun _ => 0)) 3 fun _ => 7)) t ∧ t.bio.disk 100 0 = 7 := by
  have hread : readHead (writeHead [100] fun _ => 0) = [100] :=
    readHead_writeHead _ (by simp) (by simp)
  have hfits : (layout 2).Fits [100] := ⟨by simp, by decide, by decide⟩
  obtain ⟨t, ht, -, -, hdisk⟩ := @recovery_completes 2 (Function.update
    (Function.update (fun _ _ => 0) 2 (writeHead [100] fun _ => 0)) 3 fun _ => 7)
    (by simpa [hread] using hfits) 0
  refine ⟨t, ht, ?_⟩
  rw [hdisk 100 (by decide)]
  have hhead : (layout 2).entries (Function.update (Function.update (fun _ _ => (0 : UInt8)) 2
      (writeHead [100] fun _ => 0)) 3 (fun _ => 7) (layout 2).start) = [100] := hread
  rw [LogLayout.recovered_of_getElem? (k := 0) hhead (by simp) rfl]
  rfl

end
end LiberalOS.Kernel.Log
