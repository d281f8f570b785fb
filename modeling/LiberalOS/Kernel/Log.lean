import Mathlib.Data.List.Induction
import LiberalOS.Foundation.RedoLog
import LiberalOS.Kernel.Bio
import LiberalOS.Kernel.Inode

/-!
# The log of the file system

`kernel/log.c` over the buffer cache. A transition is one critical section or one write to the
disk, so that any process may come in between, and a crash may fall between any two writes. A
process that commits or recovers reads its blocks with the transitions of `bread`; the guard of a
transition says which buffers it holds by then. `b->data` is changed by a caller of `log_write`
while it holds the buffer, and so is part of that transition. The write of a block is all or
nothing. Panics, and sleeping in `begin_op`, are `none`.

`mkfs` reserves `LOGBLOCKS` blocks for the log and its header, one less than a full log needs.

## Main results

* `step_refines`, `run_refines` — the log with its cache is an atomic store, in every run with
  crashes at any point.
* `quiescent_contents` — without operations under way the blocks are as the last commit left them.
-/
namespace LiberalOS.Kernel.Log
open Foundation Bio

abbrev maxopblocks : Nat := 10
abbrev logblocks : Nat := maxopblocks * 3

/-! ## The header block -/

/-- The list that `read_head` gets from a header; a negative `n` is no entry. -/
def readHead (hdr : Block) : List Nat :=
  if Fs.word hdr 0 < 2147483648 then
    (List.range (Fs.word hdr 0)).map fun i => Fs.word hdr (i + 1)
  else []

/-- The loop of `write_head`: the words from `i` on. -/
def writeBlocks : Nat → List Nat → Block → Block
  | _, [], hdr => hdr
  | i, b :: bs, hdr => writeBlocks (i + 1) bs (Fs.setWord hdr i b)

/-- `write_head` on the bytes of the header; what is behind the list stays. -/
def writeHead (lh : List Nat) (hdr : Block) : Block :=
  writeBlocks 1 lh (Fs.setWord hdr 0 lh.length)

theorem word_writeBlocks_of_lt {i k : Nat} (bs : List Nat) (hdr : Block) (h : k < i) :
    Fs.word (writeBlocks i bs hdr) k = Fs.word hdr k := by
  induction bs generalizing i hdr with
  | nil => rfl
  | cons b bs ih =>
    rw [writeBlocks, ih _ (by omega), Fs.word_setWord_of_ne _ (by omega)]

theorem word_writeBlocks {i k : Nat} {bs : List Nat} (hdr : Block)
    (hbs : ∀ b ∈ bs, b < 4294967296) (hk : k < bs.length) :
    Fs.word (writeBlocks i bs hdr) (k + i) = bs[k] := by
  induction bs generalizing i k hdr with
  | nil => simp at hk
  | cons b bs ih =>
    cases k with
    | zero =>
      rw [writeBlocks, Nat.zero_add, word_writeBlocks_of_lt _ _ (by omega),
        Fs.word_setWord_self _ _ (hbs b List.mem_cons_self)]
      rfl
    | succ k =>
      have hrest := ih (Fs.setWord hdr i b) (fun c hc => hbs c (List.mem_cons_of_mem _ hc))
        (i := i + 1) (k := k) (by simpa using hk)
      rw [writeBlocks, show k + 1 + i = k + (i + 1) by omega, hrest]
      rfl

theorem readHead_writeHead {lh : List Nat} (hdr : Block) (hlh : ∀ b ∈ lh, b < 4294967296)
    (hlen : lh.length < 2147483648) : readHead (writeHead lh hdr) = lh := by
  have hn : Fs.word (writeHead lh hdr) 0 = lh.length := by
    rw [writeHead, word_writeBlocks_of_lt _ _ (by omega), Fs.word_setWord_self _ _ (by omega)]
  rw [readHead, hn, if_pos hlen]
  refine List.ext_getElem (by simp) fun k _ hk => ?_
  rw [List.getElem_map, List.getElem_range]
  exact word_writeBlocks _ hlh hk

/-! ## States and steps -/

/-- Where the log lies when the superblock says that it starts at `start`. -/
def layout (start : Nat) : LogLayout Block := ⟨start, logblocks, readHead⟩

/-- What `commit` or `recover_from_log` does next; `tail` is the counter of their loops. -/
inductive Phase where
  | idle
  | writeLog (tail : Nat)
  | install (recovering : Bool) (tail : Nat)
  | done
  | readHead
  deriving DecidableEq

/-- A process between `begin_op` and `end_op`, and the blocks it has logged so far. -/
structure Op where
  pid : Nat
  logged : List Nat

/-- `log.outstanding` is the length of `ops`, and `log.committing` is set in every phase but
`idle`. -/
structure State where
  bio : Bio.State
  start : Nat
  lh : List Nat
  ops : List Op
  phase : Phase

/-- After power on, before `recover_from_log`. -/
def boot (start : Nat) (disk : Nat → Block) : State := ⟨binit disk, start, [], [], .readHead⟩

/-- The parts of `bread` and `brelse`, the calls of an operation, the writes of a commit or of the
recovery, and a crash. -/
inductive Label where
  | bget (p b : Nat)
  | acquire (p : Nat) (i : Fin nbuf)
  | releasesleep (p : Nat) (i : Fin nbuf)
  | unget (p : Nat) (i : Fin nbuf)
  | beginOp (p : Nat)
  | logWrite (p : Nat) (i : Fin nbuf) (v : Block)
  | endOp (p : Nat)
  | writeLog (p : Nat) (i j : Fin nbuf)
  | writeHead (p : Nat) (i : Fin nbuf)
  | install (p : Nat) (i j : Fin nbuf)
  | erase (p : Nat) (i : Fin nbuf)
  | readHead (p : Nat) (i : Fin nbuf)
  | finish
  | crash

/-- The process holds the buffer of the block. -/
def State.Holds (s : State) (p : Nat) (i : Fin nbuf) (b : Nat) : Prop :=
  (s.bio.buf i).lock = some p ∧ (s.bio.buf i).blockno = b

instance (s : State) (p : Nat) (i : Fin nbuf) (b : Nat) : Decidable (s.Holds p i b) :=
  inferInstanceAs (Decidable (_ ∧ _))

/-- The bytes of a buffer are changed and written. -/
def State.write (s : State) (i : Fin nbuf) (v : Block) : Bio.State := bwrite (s.bio.fill i v) i

def Op.log (op : Op) (p b : Nat) : Op :=
  if op.pid = p then { op with logged := addBlock op.logged b } else op

/-- `end_op` starts the commit when no operation is left; an empty one has nothing to write. -/
def nextPhase (ops : List Op) (lh : List Nat) : Phase :=
  if ops ≠ [] then .idle else if lh = [] then .done else .writeLog 0

def step (s : State) : Label → Option State
  | .bget p b => (Bio.bget s.bio p rootdev b).map fun bio => { s with bio }
  | .acquire p i => (Bio.acquire s.bio p i).map fun bio => { s with bio }
  | .releasesleep p i => (Bio.releasesleep s.bio p i).map fun bio => { s with bio }
  | .unget p i => (Bio.unget s.bio p i).map fun bio => { s with bio }
  | .beginOp p =>
    if s.phase = .idle ∧ s.lh.length + (s.ops.length + 1) * maxopblocks ≤ logblocks then
      some { s with ops := ⟨p, []⟩ :: s.ops }
    else none
  | .logWrite p i v =>
    let b := (s.bio.buf i).blockno
    if s.Holds p i b ∧ s.lh.length < logblocks ∧ 1 ≤ s.ops.length then
      some { s with
        bio := s.bio.logged s.lh i v
        lh := addBlock s.lh b
        ops := s.ops.map fun op => op.log p b }
    else none
  | .endOp p =>
    if s.phase = .idle ∧ s.ops.any (fun op => op.pid = p) then
      let ops := s.ops.eraseP fun op => op.pid = p
      some { s with ops := ops, phase := nextPhase ops s.lh }
    else none
  | .writeLog p i j =>
    match s.phase with
    | .writeLog tail =>
      (s.lh[tail]?).bind fun b =>
        if s.Holds p i (s.start + tail + 1) ∧ s.Holds p j b then
          some { s with bio := s.write i (s.bio.buf j).data, phase := .writeLog (tail + 1) }
        else none
    | _ => none
  | .writeHead p i =>
    if s.phase = .writeLog s.lh.length ∧ s.Holds p i s.start then
      some { s with
        bio := s.write i (Log.writeHead s.lh (s.bio.buf i).data)
        phase := .install false 0 }
    else none
  | .install p i j =>
    match s.phase with
    | .install recovering tail =>
      (s.lh[tail]?).bind fun b =>
        if s.Holds p i (s.start + tail + 1) ∧ s.Holds p j b then
          let bio := s.write j (s.bio.buf i).data
          some { s with
            bio := if recovering then bio else bunpin bio j
            phase := .install recovering (tail + 1) }
        else none
    | _ => none
  | .erase p i =>
    match s.phase with
    | .install _ tail =>
      if tail = s.lh.length ∧ s.Holds p i s.start then
        some { s with
          bio := s.write i (Log.writeHead [] (s.bio.buf i).data)
          lh := []
          phase := .done }
      else none
    | _ => none
  | .readHead p i =>
    if s.phase = .readHead ∧ s.Holds p i s.start then
      some { s with lh := Log.readHead (s.bio.buf i).data, phase := .install true 0 }
    else none
  | .finish => if s.phase = .done then some { s with phase := .idle } else none
  | .crash => some (boot s.start s.bio.disk)

/-! ## What the log stands for -/

/-- The blocks that are pinned: those in the log that are not installed yet. -/
def State.pins (s : State) : List Nat :=
  match s.phase with
  | .idle | .writeLog _ => s.lh
  | .install false tail => s.lh.drop tail
  | _ => []

/-- The file system is in use: nothing is left to recover. -/
def State.Mounted (s : State) : Prop :=
  match s.phase with
  | .readHead | .install true _ => False
  | _ => True

/-- The transition as an event of the store. -/
def events (s : State) : Label → List (StoreEvent Block)
  | .beginOp _ => [.begin]
  | .logWrite _ i v => [.write (s.bio.buf i).blockno v]
  | .endOp _ => [.finish]
  | .writeHead _ _ => [.commit]
  | .crash => [.crash]
  | _ => []

/-- The events of a run. -/
def trace : State → List Label → List (StoreEvent Block)
  | _, [] => []
  | s, l :: ls => events s l ++ (step s l).elim [] fun t => trace t ls

/-- What `log_write` expects of its callers: the block is not one of the log's own. -/
def Expected (s : State) : Label → State → Prop
  | .logWrite _ i _, _ =>
    (layout s.start).Home (s.bio.buf i).blockno ∧ (s.bio.buf i).blockno < 4294967296
  | _, _ => True

instance (s : State) (l : Label) (t : State) : Decidable (Expected s l t) := by
  unfold Expected
  split <;> infer_instance

/-- A caller of `log_write` is in an operation, which logs at most `MAXOPBLOCKS` blocks. -/
def Modest (s : State) : Label → State → Prop
  | .logWrite p i _, _ => ∃ op ∈ s.ops, op.pid = p ∧
    (op.logged.length < maxopblocks ∨ (s.bio.buf i).blockno ∈ op.logged)
  | _, _ => True

instance (s : State) (l : Label) (t : State) : Decidable (Modest s l t) := by
  unfold Modest
  split <;> infer_instance

/-- A list of blocks for the log. -/
structure Loggable (start : Nat) (lh : List Nat) : Prop where
  nodup : lh.Nodup
  home : ∀ b ∈ lh, (layout start).Home b
  lt : ∀ b ∈ lh, b < 4294967296
  length_le : lh.length ≤ logblocks

/-- The header on the disk. -/
def State.header (s : State) : List Nat := readHead (s.bio.disk s.start)

/-- What holds in the phases of a commit and of the recovery. -/
def PhaseInv (s : State) (a : AtomicStore Block) : Prop :=
  match s.phase with
  | .idle => Loggable s.start s.lh ∧ s.header = [] ∧ (s.ops = [] → s.lh = [])
  | .writeLog tail =>
    Loggable s.start s.lh ∧ s.header = [] ∧ s.ops = [] ∧ s.lh ≠ [] ∧
      (0 < tail → s.lh.length < logblocks) ∧
      ∀ k b, k < tail → s.lh[k]? = some b →
        s.bio.disk ((layout s.start).slot k) = s.bio.contents b
  | .install recovering tail =>
    (layout s.start).Fits s.lh ∧ s.header = s.lh ∧ s.ops = [] ∧
      (∀ k b, k < tail → s.lh[k]? = some b → s.bio.disk b = s.bio.disk ((layout s.start).slot k)) ∧
      if recovering then a.current = a.durable
      else ∀ k b, s.lh[k]? = some b → s.bio.disk ((layout s.start).slot k) = s.bio.contents b
  | .done => s.header = [] ∧ s.ops = [] ∧ s.lh = []
  | .readHead => (layout s.start).Fits s.header ∧ s.ops = [] ∧ a.current = a.durable

/-- The state of the log and the cache, and the store it stands for. -/
structure Inv (s : State) (a : AtomicStore Block) : Prop where
  coherent : Coherent s.bio s.pins
  durable : ∀ b, (layout s.start).Home b → (layout s.start).recovered s.bio.disk b = a.durable b
  current : s.Mounted → ∀ b, (layout s.start).Home b → s.bio.contents b = a.current b
  active : a.active = s.ops.length
  phase : PhaseInv s a

/-! ## One transition -/

section
variable {s t : State} {a : AtomicStore Block} {p b : Nat} {i j : Fin nbuf}

theorem slot_eq (start tail : Nat) : start + tail + 1 = (layout start).slot tail := by
  simp only [LogLayout.slot, layout]
  omega

theorem start_ne_slot (start k : Nat) : start ≠ (layout start).slot k :=
  (LogLayout.slot_ne_start (L := layout start)).symm

theorem ne_start {start : Nat} (h : (layout start).Home b) : b ≠ start :=
  h.ne_start (show 0 < logblocks by decide)

/-- A step of `bread` or `brelse` is invisible. -/
theorem Inv.of_bio (h : Inv s a) {bio : Bio.State} (hbio : Coherent bio s.pins)
    (hcontents : bio.contents = s.bio.contents) (hdisk : bio.disk = s.bio.disk) :
    Inv { s with bio } a where
  coherent := hbio
  durable := hdisk ▸ h.durable
  current := hcontents ▸ h.current
  active := h.active
  phase := by
    have := h.phase
    unfold PhaseInv at this ⊢
    simp only [State.header, hdisk, hcontents] at this ⊢
    exact this

theorem Inv.bget (h : Inv s a) (hs : step s (.bget p b) = some t) : Inv t a := by
  obtain ⟨bio, hbio, rfl⟩ := Option.map_eq_some_iff.mp hs
  exact h.of_bio (h.coherent.bget hbio) (h.coherent.contents_bget hbio) (bget_disk hbio)

theorem Inv.acquire (h : Inv s a) (hs : step s (.acquire p i) = some t) : Inv t a := by
  obtain ⟨bio, hbio, rfl⟩ := Option.map_eq_some_iff.mp hs
  refine h.of_bio (h.coherent.acquire hbio) (h.coherent.contents_acquire hbio) ?_
  obtain ⟨-, -, rfl⟩ := acquire_eq_some hbio
  rfl

theorem Inv.releasesleep (h : Inv s a) (hs : step s (.releasesleep p i) = some t) : Inv t a := by
  obtain ⟨bio, hbio, rfl⟩ := Option.map_eq_some_iff.mp hs
  refine h.of_bio (h.coherent.releasesleep hbio) (h.coherent.contents_releasesleep hbio) ?_
  obtain ⟨-, rfl⟩ := releasesleep_eq_some hbio
  rfl

theorem Inv.unget (h : Inv s a) (hs : step s (.unget p i) = some t) : Inv t a := by
  obtain ⟨bio, hbio, rfl⟩ := Option.map_eq_some_iff.mp hs
  refine h.of_bio (h.coherent.unget hbio) (h.coherent.contents_unget hbio) ?_
  obtain ⟨-, -, rfl⟩ := unget_eq_some hbio
  rfl

theorem Inv.beginOp (h : Inv s a) (hs : step s (.beginOp p) = some t) :
    Inv t { a with active := a.active + 1 } := by
  simp only [step, Option.ite_none_right_eq_some, Option.some.injEq] at hs
  obtain ⟨⟨hidle, -⟩, rfl⟩ := hs
  have hphase := h.phase
  simp only [PhaseInv, hidle] at hphase
  obtain ⟨hlog, hheader, -⟩ := hphase
  exact ⟨h.coherent, h.durable, h.current, by simp [h.active],
    by simp only [PhaseInv, hidle]; exact ⟨hlog, hheader, by simp⟩⟩

theorem mem_addBlock {lh : List Nat} {c : Nat} : c ∈ addBlock lh b ↔ c ∈ lh ∨ c = b := by
  unfold addBlock
  grind

theorem Loggable.addBlock {start : Nat} {lh : List Nat} (h : Loggable start lh)
    (hlen : lh.length < logblocks) (hb : (layout start).Home b) (hlt : b < 4294967296) :
    Loggable start (addBlock lh b) := by
  obtain ⟨hnodup, hhome, hlts, hle⟩ := h
  constructor
  · unfold Bio.addBlock
    grind
  · grind [mem_addBlock]
  · grind [mem_addBlock]
  · unfold Bio.addBlock
    grind

/-- Where operations are under way, nothing is committed. -/
theorem Inv.idle_of_ops (h : Inv s a) (hops : s.ops ≠ []) : s.phase = .idle := by
  have hphase := h.phase
  unfold PhaseInv at hphase
  split at hphase <;> grind

theorem Inv.logWrite {v : Block} (h : Inv s a) (hs : step s (.logWrite p i v) = some t)
    (hexp : Expected s (.logWrite p i v) t) :
    0 < a.active ∧
      Inv t { a with current := Function.update a.current (s.bio.buf i).blockno v } := by
  simp only [step, Option.ite_none_right_eq_some, Option.some.injEq] at hs
  obtain ⟨⟨⟨hlock, -⟩, hlen, hops⟩, rfl⟩ := hs
  have hne : s.ops ≠ [] := by grind
  have hidle := h.idle_of_ops hne
  have hphase := h.phase
  have hcoh := h.coherent
  simp only [PhaseInv, hidle, State.pins] at hphase hcoh
  obtain ⟨hlog, hheader, -⟩ := hphase
  have hstores := stores_logged s.bio s.lh i v
  have hdisk : (s.bio.logged s.lh i v).disk = s.bio.disk := by
    unfold Bio.State.logged bpin
    split <;> rfl
  refine ⟨by have := h.active; omega, ?_, ?_, fun _ b hb => ?_, by simp [h.active], ?_⟩
  · simpa only [State.pins, hidle] using hcoh.stores hlock hstores
  · simpa only [hdisk] using h.durable
  · simp only
    rw [hcoh.contents_stores hlock hstores]
    have := h.current (by simp [State.Mounted, hidle]) b hb
    simp only [Function.update_apply, this]
  · simp only [PhaseInv, hidle, State.header, hdisk]
    exact ⟨hlog.addBlock hlen hexp.1 hexp.2, hheader, by simp [hne]⟩

theorem Inv.endOp (h : Inv s a) (hs : step s (.endOp p) = some t) :
    0 < a.active ∧ Inv t { a with active := a.active - 1 } := by
  simp only [step, Option.ite_none_right_eq_some, Option.some.injEq] at hs
  obtain ⟨⟨hidle, hany⟩, rfl⟩ := hs
  obtain ⟨op, hop, hpid⟩ := List.any_eq_true.mp hany
  have hlen : (s.ops.eraseP fun op => op.pid = p).length = s.ops.length - 1 :=
    List.length_eraseP_of_mem hop hpid
  have hpos : 0 < s.ops.length := List.length_pos_of_mem hop
  have hphase := h.phase
  have hcoh := h.coherent
  have hcurrent := h.current (by simp [State.Mounted, hidle])
  simp only [PhaseInv, hidle, State.pins] at hphase hcoh
  obtain ⟨hlog, hheader, hempty⟩ := hphase
  refine ⟨by have := h.active; omega, ?_⟩
  generalize hops : (s.ops.eraseP fun op => op.pid = p) = ops at hlen ⊢
  refine ⟨?_, h.durable, fun _ => hcurrent, by simp [h.active, hlen], ?_⟩
  · simp only [State.pins, nextPhase]
    split_ifs with hne hlh
    · exact hcoh
    · exact hlh ▸ hcoh
    · exact hcoh
  · simp only [PhaseInv, nextPhase]
    split_ifs with hne hlh
    · exact ⟨hlog, hheader, fun hnil => absurd hnil hne⟩
    · exact ⟨hheader, by simpa using hne, hlh⟩
    · exact ⟨hlog, hheader, by simpa using hne, hlh, by simp, by simp⟩

theorem mem_of_mem_pins (h : b ∈ s.pins) : b ∈ s.lh := by
  unfold State.pins at h
  split at h
  · exact h
  · exact h
  · exact List.mem_of_mem_drop h
  · cases h

/-- The bytes of a held buffer whose block is not pinned are those on the disk. -/
theorem Inv.data_eq_disk (h : Inv s a) (hi : s.Holds p i b) (hb : b ∉ s.pins) :
    (s.bio.buf i).data = s.bio.disk b := by
  obtain ⟨hlock, rfl⟩ := hi
  exact h.coherent.clean i (h.coherent.held i p hlock).2 hb

/-- The bytes of a held buffer are the contents of its block. -/
theorem Inv.data_eq_contents (h : Inv s a) (hi : s.Holds p i b) :
    (s.bio.buf i).data = s.bio.contents b := by
  obtain ⟨hlock, rfl⟩ := hi
  obtain ⟨href, hvalid⟩ := h.coherent.held i p hlock
  exact (h.coherent.contents_of_caches (h.coherent.caches_of_mem href) hvalid).symm

@[simp] theorem State.write_disk (s : State) (i : Fin nbuf) (v : Block) :
    (s.write i v).disk = Function.update s.bio.disk (s.bio.buf i).blockno v := by
  simp [State.write, bwrite]

/-- A block is copied to the log. While the blocks of the log are pinned there is a buffer for one
more, so that the log is not full and its block lies in the reserved range. -/
theorem Inv.writeLog (h : Inv s a) (hs : step s (.writeLog p i j) = some t) : Inv t a := by
  simp only [step] at hs
  split at hs
  · next tail hphase =>
    obtain ⟨b, hb, hs⟩ := Option.bind_eq_some_iff.mp hs
    simp only [Option.ite_none_right_eq_some, Option.some.injEq] at hs
    obtain ⟨⟨hi, hj⟩, rfl⟩ := hs
    have hinv := h.phase
    have hcoh := h.coherent
    simp only [PhaseInv, hphase, State.pins] at hinv hcoh
    obtain ⟨hlog, hheader, hops, hne, hlt, hcopied⟩ := hinv
    obtain ⟨hlock, hslot⟩ := hi
    rw [slot_eq] at hslot
    obtain ⟨href, -⟩ := hcoh.held i p hlock
    have htail : tail < s.lh.length := (List.getElem?_eq_some_iff.mp hb).1
    have hlen : s.lh.length < logblocks := by
      obtain rfl | hpos := Nat.eq_zero_or_pos tail
      · refine hcoh.pins_length_lt hlog.nodup (i := i) fun hi => ?_
        exact absurd rfl ((hlog.home _ (hslot ▸ hi.2)).ne_slot (by show 0 + 1 < logblocks; decide))
      · exact hlt hpos
    have hsize : tail + 1 < (layout s.start).size := by
      simp only [layout]
      omega
    have hunpinned : (s.bio.buf i).blockno ∉ s.lh := fun hmem =>
      absurd hslot ((hlog.home _ hmem).ne_slot hsize)
    have hstores := stores_bwrite s.bio s.lh i (s.bio.buf j).data
    have hcontents := hcoh.contents_stores hlock hstores
    rw [hslot] at hcontents
    have hdata := h.data_eq_contents hj
    have hsame : ∀ c, (layout s.start).Home c → (s.write i (s.bio.buf j).data).contents c =
        s.bio.contents c := fun c hc => by
      rw [State.write, hcontents, Function.update_of_ne (hc.ne_slot hsize)]
    refine ⟨?_, fun c hc => ?_, fun _ c hc => ?_, h.active, ?_⟩
    · simpa only [State.pins, hphase, State.write] using hcoh.stores hlock hstores
    · rw [State.write_disk, hslot, LogLayout.recovered_slot hheader hsize hc, h.durable c hc]
    · rw [hsame c hc, h.current (by simp [State.Mounted, hphase]) c hc]
    · refine ⟨hlog, ?_, hops, hne, fun _ => hlen, fun k c hk hc => ?_⟩
      · simp only [State.header, State.write_disk, hslot]
        rw [Function.update_of_ne (start_ne_slot _ _)]
        exact hheader
      · rw [hsame c (hlog.home c (List.mem_of_getElem? hc)), State.write_disk, hslot]
        obtain rfl | hk := Nat.lt_succ_iff_lt_or_eq.mp hk |>.symm
        · obtain rfl : b = c := Option.some.inj (hb.symm.trans hc)
          rw [Function.update_self, hdata]
        · rw [Function.update_of_ne fun heq => hk.ne (LogLayout.slot_injective heq),
            hcopied k c hk hc]
  · cases hs

/-- The commit: from now on the disk stands for the current contents. -/
theorem Inv.writeHead (h : Inv s a) (hs : step s (.writeHead p i) = some t) :
    a.active = 0 ∧ Inv t { a with durable := a.current } := by
  simp only [step, Option.ite_none_right_eq_some, Option.some.injEq] at hs
  obtain ⟨⟨hphase, hlock, hstart⟩, rfl⟩ := hs
  have hinv := h.phase
  have hcoh := h.coherent
  have hcurrent := h.current (by simp [State.Mounted, hphase])
  simp only [PhaseInv, hphase, State.pins] at hinv hcoh
  obtain ⟨hlog, hheader, hops, hne, hlt, hcopied⟩ := hinv
  have hpos : 0 < s.lh.length := List.length_pos_iff.mpr hne
  have hfits : (layout s.start).Fits s.lh := ⟨hlog.nodup, hlog.home, hlt hpos⟩
  have hlen : s.lh.length < logblocks := hlt hpos
  generalize hv : Log.writeHead s.lh (s.bio.buf i).data = v
  have hread : readHead v = s.lh := hv ▸ readHead_writeHead _ hlog.lt (hlen.trans (by decide))
  have hstores := stores_bwrite s.bio s.lh i v
  have hcontents := hcoh.contents_stores hlock hstores
  rw [hstart] at hcontents
  have hslots : ∀ k b, s.lh[k]? = some b →
      s.bio.disk ((layout s.start).slot k) = s.bio.contents b := fun k b hk =>
    hcopied k b (List.getElem?_eq_some_iff.mp hk).1 hk
  have hsame : ∀ c, (layout s.start).Home c →
      (s.write i v).contents c = s.bio.contents c := fun c hc => by
    rw [State.write, hcontents, Function.update_of_ne (ne_start hc)]
  refine ⟨by simp [h.active, hops], ?_, fun c hc => ?_, fun _ c hc => ?_, h.active, ?_⟩
  · simpa only [State.pins, State.write, List.drop_zero] using hcoh.stores hlock hstores
  · simp only [State.write_disk, hstart, ← hcurrent c hc]
    exact LogLayout.recovered_commit hread hfits hslots hc fun hmem =>
      (hcoh.contents_of_notMem hmem).symm
  · rw [hsame c hc, hcurrent c hc]
  · refine ⟨hfits, ?_, hops, by simp, fun k c hk => ?_⟩
    · simpa only [State.header, State.write_disk, hstart, Function.update_self] using hread
    · rw [hsame c (hlog.home c (List.mem_of_getElem? hk)), State.write_disk, hstart,
        Function.update_of_ne (start_ne_slot _ _).symm]
      exact hslots k c hk

/-- A committed block is copied home; a pinned buffer has it already. -/
theorem Inv.install (h : Inv s a) (hs : step s (.install p i j) = some t) : Inv t a := by
  simp only [step] at hs
  split at hs
  · next recovering tail hphase =>
    obtain ⟨b, hb, hs⟩ := Option.bind_eq_some_iff.mp hs
    simp only [Option.ite_none_right_eq_some, Option.some.injEq] at hs
    obtain ⟨⟨hi, hlock, hblockno⟩, rfl⟩ := hs
    have hinv := h.phase
    have hcoh := h.coherent
    simp only [PhaseInv, hphase] at hinv
    obtain ⟨hfits, hheader, hops, hdone, hrec⟩ := hinv
    rw [slot_eq] at hi
    have htail : tail < s.lh.length := (List.getElem?_eq_some_iff.mp hb).1
    have hsize : tail + 1 < (layout s.start).size := by
      have := hfits.length_lt
      omega
    have hhome : (layout s.start).Home b := hfits.home b (List.mem_of_getElem? hb)
    have hslot : (layout s.start).slot tail ∉ s.pins := fun hmem =>
      absurd rfl ((hfits.home _ (mem_of_mem_pins hmem)).ne_slot hsize)
    have hdata : (s.bio.buf i).data = s.bio.disk ((layout s.start).slot tail) :=
      h.data_eq_disk hi hslot
    rw [hdata]
    generalize hv : s.bio.disk ((layout s.start).slot tail) = v
    have hdisk : (if recovering then s.write j v else bunpin (s.write j v) j).disk =
        Function.update s.bio.disk b v := by
      rw [← hblockno, ← State.write_disk]
      split <;> rfl
    have hslots : ∀ k, k < s.lh.length → Function.update s.bio.disk b v ((layout s.start).slot k) =
        s.bio.disk ((layout s.start).slot k) := fun k hk =>
      Function.update_of_ne (hhome.ne_slot (by have := hfits.length_lt; omega)).symm _ _
    have hinstalled : ∀ k c, k < tail + 1 → s.lh[k]? = some c →
        Function.update s.bio.disk b v c =
          Function.update s.bio.disk b v ((layout s.start).slot k) := fun k c hk hc => by
      rw [hslots k (List.getElem?_eq_some_iff.mp hc).1]
      obtain rfl | hk := Nat.lt_succ_iff_lt_or_eq.mp hk |>.symm
      · obtain rfl : b = c := Option.some.inj (hb.symm.trans hc)
        rw [Function.update_self, hv]
      · have hne : c ≠ b := by
          rintro rfl
          exact hk.ne ((List.getElem?_inj (hk.trans htail) hfits.nodup).mp (hc.trans hb.symm))
        rw [Function.update_of_ne hne, hdone k c hk hc]
    have hdurable (c : Nat) (hc : (layout s.start).Home c) :
        (layout s.start).recovered (Function.update s.bio.disk b v) c = a.durable c := by
      rw [← hv, LogLayout.recovered_install hheader hfits hb, h.durable c hc]
    have hheader' : readHead (Function.update s.bio.disk b v s.start) = s.lh := by
      rw [Function.update_of_ne (ne_start hhome).symm]
      exact hheader
    cases recovering with
    | true =>
      simp only [State.pins, hphase] at hcoh
      refine ⟨?_, fun c hc => hdisk ▸ hdurable c hc, fun hm => hm.elim, h.active, ?_⟩
      · exact hcoh.stores hlock (stores_bwrite s.bio [] j v)
      · refine ⟨hfits, (congrArg readHead (congrFun hdisk _)).trans hheader', hops,
          fun k c hk hc => ?_, hrec⟩
        exact hdisk ▸ hinstalled k c hk hc
    | false =>
      have hdrop : s.lh.drop tail = b :: s.lh.drop (tail + 1) := by
        obtain ⟨_, rfl⟩ := List.getElem?_eq_some_iff.mp hb
        exact List.drop_eq_getElem_cons htail
      simp only [State.pins, hphase, hdrop] at hcoh
      have hb' : b ∉ s.lh.drop (tail + 1) :=
        (List.nodup_cons.mp (hdrop ▸ hfits.nodup.sublist (List.drop_sublist tail _))).1
      have hpos : 0 < (s.bio.buf j).refcnt :=
        Nat.pos_of_ne_zero (hcoh.refcnt_ne_zero (hcoh.held j p hlock).1)
      have hstores := stores_install hblockno hb' hpos v
      -- the pinned buffer has the committed bytes already
      have hcontents : (bunpin (s.write j v) j).contents = s.bio.contents := by
        have hbv : v = s.bio.contents b := hv ▸ hrec tail b hb
        rw [State.write, hcoh.contents_stores hlock hstores, hblockno, hbv, Function.update_eq_self]
      refine ⟨hcoh.stores hlock hstores, fun c hc => hdisk ▸ hdurable c hc, fun _ c hc => ?_,
        h.active, ?_⟩
      · exact hcontents ▸ h.current (by simp [State.Mounted, hphase]) c hc
      · refine ⟨hfits, (congrArg readHead (congrFun hdisk _)).trans hheader', hops,
          fun k c hk hc => ?_, fun k c hc => ?_⟩
        · exact hdisk ▸ hinstalled k c hk hc
        · exact hdisk ▸ hcontents ▸
            (hslots k (List.getElem?_eq_some_iff.mp hc).1).trans (hrec k c hc)
  · cases hs

/-- The header is emptied when the committed blocks are at home. -/
theorem Inv.erase (h : Inv s a) (hs : step s (.erase p i) = some t) : Inv t a := by
  simp only [step] at hs
  split at hs
  · next recovering tail hphase =>
    simp only [Option.ite_none_right_eq_some, Option.some.injEq] at hs
    obtain ⟨⟨rfl, hlock, hstart⟩, rfl⟩ := hs
    have hinv := h.phase
    have hcoh := h.coherent
    have hpins : s.pins = [] := by
      simp only [State.pins, hphase]
      cases recovering <;> simp
    simp only [PhaseInv, hphase] at hinv
    obtain ⟨hfits, hheader, hops, hdone, hrec⟩ := hinv
    rw [hpins] at hcoh
    generalize hv : Log.writeHead [] (s.bio.buf i).data = v
    have hread : readHead v = [] := hv ▸ readHead_writeHead _ (by simp) (by simp)
    have hcoh' : Coherent (s.write i v) [] := hcoh.stores hlock (stores_bwrite s.bio [] i v)
    have hdurable : ∀ c, (layout s.start).Home c →
        (layout s.start).recovered (s.write i v).disk c = a.durable c := fun c hc => by
      rw [← h.durable c hc, State.write_disk, hstart]
      exact LogLayout.recovered_erase hheader hfits hread
        (fun k b hk => hdone k b (List.getElem?_eq_some_iff.mp hk).1 hk) hc
    have hheader' : readHead ((s.write i v).disk s.start) = [] := by
      rw [State.write_disk, hstart, Function.update_self]
      exact hread
    refine ⟨hcoh', hdurable, fun _ c hc => ?_, h.active, hheader', hops, rfl⟩
    have hcontents : (s.write i v).contents c = s.bio.contents c := by
      rw [State.write, hcoh.contents_stores hlock (stores_bwrite s.bio [] i v), hstart,
        Function.update_of_ne (ne_start hc)]
    cases recovering with
    | true =>
      -- nothing is pinned, so that the disk is what is read from now on
      rw [if_pos rfl] at hrec
      rw [hrec, ← hdurable c hc, hcoh'.contents_of_notMem (by simp)]
      exact (LogLayout.recovered_of_empty (L := layout s.start) hheader').symm
    | false =>
      exact hcontents.trans (h.current (by simp [State.Mounted, hphase]) c hc)
  · cases hs

/-- The recovery starts with the header on the disk. -/
theorem Inv.readHead (h : Inv s a) (hs : step s (.readHead p i) = some t) : Inv t a := by
  simp only [step, Option.ite_none_right_eq_some, Option.some.injEq] at hs
  obtain ⟨⟨hphase, hi⟩, rfl⟩ := hs
  have hinv := h.phase
  have hcoh := h.coherent
  simp only [PhaseInv, hphase, State.pins] at hinv hcoh
  obtain ⟨hfits, hops, hrec⟩ := hinv
  have hdata : (s.bio.buf i).data = s.bio.disk s.start :=
    h.data_eq_disk hi (by simp [State.pins, hphase])
  rw [hdata]
  exact ⟨hcoh, h.durable, fun hm => hm.elim, h.active, hfits, rfl, hops, by simp, hrec⟩

theorem Inv.finish (h : Inv s a) (hs : step s .finish = some t) : Inv t a := by
  simp only [step, Option.ite_none_right_eq_some, Option.some.injEq] at hs
  obtain ⟨hphase, rfl⟩ := hs
  have hinv := h.phase
  have hcoh := h.coherent
  have hcurrent := h.current (by simp [State.Mounted, hphase])
  simp only [PhaseInv, hphase, State.pins] at hinv hcoh
  obtain ⟨hheader, hops, hlh⟩ := hinv
  refine ⟨by simpa only [State.pins, hlh] using hcoh, h.durable, fun _ => hcurrent, h.active, ?_⟩
  refine ⟨?_, hheader, fun _ => hlh⟩
  rw [hlh]
  exact ⟨List.nodup_nil, by simp, by simp, by simp⟩

/-- The header on the disk fits in every phase, so that a crash can be recovered from. -/
theorem Inv.header_fits (h : Inv s a) : (layout s.start).Fits s.header := by
  have hinv := h.phase
  have hnil : (layout s.start).Fits [] := .nil (show 0 < logblocks by decide)
  unfold PhaseInv at hinv
  split at hinv
  · exact hinv.2.1 ▸ hnil
  · exact hinv.2.1 ▸ hnil
  · exact hinv.2.1 ▸ hinv.1
  · exact hinv.1 ▸ hnil
  · exact hinv.1

theorem Inv.crash (h : Inv s a) (hs : step s .crash = some t) :
    Inv t { a with current := a.durable, active := 0 } := by
  obtain rfl := Option.some.inj hs
  exact ⟨.binit _, h.durable, fun hm => hm.elim, rfl, h.header_fits, rfl, rfl⟩

/-- The state after power on stands for the contents that the recovery will find. -/
theorem Inv.boot {start : Nat} {disk : Nat → Block}
    (hfits : (layout start).Fits (Log.readHead (disk start))) :
    Inv (boot start disk) (.ofContents ((layout start).recovered disk)) :=
  ⟨.binit _, fun _ _ => rfl, fun hm => hm.elim, rfl, hfits, rfl, rfl⟩

/-- Every transition of the log is one of the atomic store, or none. -/
theorem step_refines {l : Label} (h : Inv s a) (hs : step s l = some t) (hexp : Expected s l t) :
    ∃ a', exec AtomicStore.step a (events s l) = some a' ∧ Inv t a' := by
  cases l with
  | bget p b => exact ⟨a, rfl, h.bget hs⟩
  | acquire p i => exact ⟨a, rfl, h.acquire hs⟩
  | releasesleep p i => exact ⟨a, rfl, h.releasesleep hs⟩
  | unget p i => exact ⟨a, rfl, h.unget hs⟩
  | beginOp p => exact ⟨_, rfl, h.beginOp hs⟩
  | logWrite p i v =>
    obtain ⟨hactive, h'⟩ := h.logWrite hs hexp
    exact ⟨_, by simp [events, AtomicStore.step, hactive], h'⟩
  | endOp p =>
    obtain ⟨hactive, h'⟩ := h.endOp hs
    exact ⟨_, by simp [events, AtomicStore.step, hactive], h'⟩
  | writeLog p i j => exact ⟨a, rfl, h.writeLog hs⟩
  | writeHead p i =>
    obtain ⟨hactive, h'⟩ := h.writeHead hs
    exact ⟨_, by simp [events, AtomicStore.step, hactive], h'⟩
  | install p i j => exact ⟨a, rfl, h.install hs⟩
  | erase p i => exact ⟨a, rfl, h.erase hs⟩
  | readHead p i => exact ⟨a, rfl, h.readHead hs⟩
  | finish => exact ⟨a, rfl, h.finish hs⟩
  | crash => exact ⟨_, rfl, h.crash hs⟩

/-! ## Runs -/

theorem run_refines_from {ls : List Label} (h : Inv s a) (hs : exec step s ls = some t)
    (hexp : Along step Expected s ls) :
    ∃ a', exec AtomicStore.step a (trace s ls) = some a' ∧ Inv t a' := by
  induction ls generalizing s a with
  | nil =>
    obtain rfl := Option.some.inj hs
    exact ⟨a, rfl, h⟩
  | cons l ls ih =>
    obtain ⟨u, hu, hrest⟩ := Option.bind_eq_some_iff.mp hs
    obtain ⟨b, hb, hinv⟩ := step_refines h hu (hexp u hu).1
    obtain ⟨c, hc, hinv'⟩ := ih hinv hrest (hexp u hu).2
    exact ⟨c, by simp [trace, hu, exec_append, hb, hc], hinv'⟩

end

section
variable {start : Nat} {disk : Nat → Block} {ls : List Label} {s : State}

/-- An operation logs one block; the crash comes after its commit and before the block is at home,
and the recovery brings it there. -/
def crashRun : List Label :=
  [.bget 0 2, .acquire 0 0, .readHead 0 0, .erase 0 0, .releasesleep 0 0, .unget 0 0, .finish,
    .beginOp 1, .bget 1 100, .acquire 1 1, .logWrite 1 1 (fun _ => 7), .releasesleep 1 1,
    .unget 1 1, .endOp 1, .bget 1 3, .acquire 1 2, .bget 1 100, .acquire 1 1, .writeLog 1 2 1,
    .bget 1 2, .acquire 1 0, .writeHead 1 0, .crash, .bget 0 2, .acquire 0 0, .readHead 0 0,
    .bget 0 3, .acquire 0 1, .bget 0 100, .acquire 0 2, .install 0 1 2, .erase 0 0, .finish]

theorem fits_zero : (layout 2).Fits (readHead fun _ => 0) := by
  simpa [readHead, Fs.word_zero] using LogLayout.Fits.nil (show 0 < logblocks by decide)

/-- Every run, with crashes anywhere, is a run of the atomic store. The disk stands for the durable
contents all along, and a process that holds a buffer has the current contents of its block. -/
theorem run_refines (hfits : (layout start).Fits (readHead (disk start)))
    (hs : exec step (boot start disk) ls = some s)
    (hexp : Along step Expected (boot start disk) ls) :
    ∃ a, exec AtomicStore.step (.ofContents ((layout start).recovered disk))
        (trace (boot start disk) ls) = some a ∧
      a.active = s.ops.length ∧
      (∀ b, (layout s.start).Home b → (layout s.start).recovered s.bio.disk b = a.durable b) ∧
      (s.Mounted → ∀ p i b, s.Holds p i b → (layout s.start).Home b →
        (s.bio.buf i).data = a.current b) := by
  obtain ⟨a, ha, h⟩ := run_refines_from (.boot hfits) hs hexp
  refine ⟨a, ha, h.active, h.durable, fun hm p i b hi hb => ?_⟩
  rw [h.data_eq_contents hi, h.current hm b hb]

theorem run_refines_crashRun : ∃ s a, exec step (boot 2 fun _ _ => 0) crashRun = some s ∧
    exec AtomicStore.step (.ofContents ((layout 2).recovered fun _ _ => 0))
      (trace (boot 2 fun _ _ => 0) crashRun) = some a ∧ a.active = s.ops.length := by
  obtain ⟨s, hs⟩ : ∃ s, exec step (boot 2 fun _ _ => 0) crashRun = some s :=
    Option.isSome_iff_exists.mp (by decide +kernel)
  obtain ⟨a, ha, hactive, -⟩ := run_refines fits_zero hs (by decide +kernel)
  exact ⟨s, a, hs, ha, hactive⟩

theorem inv_of_exec (hfits : (layout start).Fits (readHead (disk start)))
    (hs : exec step (boot start disk) ls = some s)
    (hexp : Along step Expected (boot start disk) ls) : ∃ a, Inv s a := by
  obtain ⟨a, -, h⟩ := run_refines_from (.boot hfits) hs hexp
  exact ⟨a, h⟩

theorem step_start {t : State} {l : Label} (hs : step s l = some t) : t.start = s.start := by
  cases l <;> simp only [step] at hs <;>
    grind [boot, Option.map_eq_some_iff, Option.bind_eq_some_iff]

def Label.isCommit : Label → Bool
  | .writeHead _ _ => true
  | _ => false

/-- The contents the disk stands for change with a commit only. -/
theorem durable_eq_of_step {a a' : AtomicStore Block} {l : Label}
    (ha : exec AtomicStore.step a (events s l) = some a') (hl : l.isCommit = false) :
    a'.durable = a.durable := by
  refine AtomicStore.durable_of_exec ha fun e he => ?_
  cases l <;> grind [events, Label.isCommit]

/-- `f` is what the last commit of the run has written, or what was there before the run. -/
def LastCommit (start : Nat) (disk : Nat → Block) (ls : List Label) (f : Nat → Block) : Prop :=
  ((∀ l ∈ ls, l.isCommit = false) ∧
      ∀ b, (layout start).Home b → f b = (layout start).recovered disk b) ∨
    ∃ pre p i post u, ls = pre ++ .writeHead p i :: post ∧ (∀ l ∈ post, l.isCommit = false) ∧
      exec step (boot start disk) pre = some u ∧ u.ops = [] ∧
      ∀ b, (layout start).Home b → f b = u.bio.contents b

theorem LastCommit.snoc {f : Nat → Block} {l : Label} (h : LastCommit start disk ls f)
    (hl : l.isCommit = false) : LastCommit start disk (ls ++ [l]) f := by
  obtain ⟨hno, hf⟩ | ⟨pre, p, i, post, u, rfl, hpost, hu, hops, hf⟩ := h
  · exact Or.inl ⟨by simpa [or_imp, forall_and] using ⟨hno, hl⟩, hf⟩
  · exact Or.inr ⟨pre, p, i, post ++ [l], u, by simp,
      by simpa [or_imp, forall_and] using ⟨hpost, hl⟩, hu, hops, hf⟩

theorem start_of_exec {t : State} (hs : exec step s ls = some t) : t.start = s.start :=
  exec_invariant (I := fun u => u.start = s.start) (fun _ _ _ hi hu => (step_start hu).trans hi) rfl
    hs

/-- After every run the durable contents are those of the last commit. -/
theorem inv_lastCommit (hfits : (layout start).Fits (readHead (disk start)))
    (hs : exec step (boot start disk) ls = some s)
    (hexp : Along step Expected (boot start disk) ls) :
    ∃ a, Inv s a ∧ LastCommit start disk ls a.durable := by
  induction ls using List.reverseRecOn generalizing s with
  | nil =>
    obtain rfl := Option.some.inj hs
    exact ⟨_, .boot hfits, Or.inl ⟨by simp, fun _ _ => rfl⟩⟩
  | append_singleton ls l ih =>
    rw [exec_append] at hs
    obtain ⟨u, hu, hstep⟩ := Option.bind_eq_some_iff.mp hs
    rw [exec_singleton] at hstep
    obtain ⟨hexp', hlast⟩ := along_append.mp hexp
    obtain ⟨a, hinv, hcommit⟩ := ih hu hexp'
    obtain ⟨a', ha', hinv'⟩ := step_refines hinv hstep (hlast u hu s hstep).1
    refine ⟨a', hinv', ?_⟩
    cases hl : l.isCommit with
    | false => exact durable_eq_of_step ha' hl ▸ hcommit.snoc hl
    | true =>
      cases l with
      | writeHead p i =>
        have hphase := hinv.phase
        obtain ⟨hactive, -⟩ := hinv.writeHead hstep
        have hmounted : u.Mounted := by
          simp only [step, Option.ite_none_right_eq_some] at hstep
          simp [State.Mounted, hstep.1.1]
        obtain rfl : { a with durable := a.current } = a' := by
          simpa [events, AtomicStore.step, hactive] using ha'
        refine Or.inr ⟨ls, p, i, [], u, rfl, by simp, hu, ?_, fun b hb => ?_⟩
        · exact List.length_eq_zero_iff.mp (hinv.active ▸ hactive)
        · exact (hinv.current hmounted b (start_of_exec hu ▸ hb)).symm
      | _ => cases hl

/-- When no operation is under way, the blocks contain what the last commit left there, whatever
crashes and recoveries came in between; and no operation was under way at that commit. -/
theorem quiescent_contents (hfits : (layout start).Fits (readHead (disk start)))
    (hs : exec step (boot start disk) ls = some s)
    (hexp : Along step Expected (boot start disk) ls) (hidle : s.phase = .idle)
    (hops : s.ops = []) : LastCommit start disk ls s.bio.contents := by
  obtain ⟨a, hinv, hcommit⟩ := inv_lastCommit hfits hs hexp
  have hphase := hinv.phase
  simp only [PhaseInv, hidle] at hphase
  obtain ⟨-, hheader, hempty⟩ := hphase
  have hpins : s.pins = [] := by simp only [State.pins, hidle, hempty hops]
  have hstart : s.start = start := start_of_exec hs
  have hcontents : ∀ b, (layout start).Home b → s.bio.contents b = a.durable b := fun b hb => by
    rw [← hinv.durable b (hstart ▸ hb), hinv.coherent.contents_of_notMem (by simp [hpins])]
    exact (LogLayout.recovered_of_empty (L := layout s.start) hheader).symm
  obtain ⟨hno, hf⟩ | ⟨pre, p, i, post, u, hls, hpost, hu, huops, hf⟩ := hcommit
  · exact Or.inl ⟨hno, fun b hb => (hcontents b hb).trans (hf b hb)⟩
  · exact Or.inr ⟨pre, p, i, post, u, hls, hpost, hu, huops,
      fun b hb => (hcontents b hb).trans (hf b hb)⟩

theorem quiescent_contents_crashRun : ∃ s, exec step (boot 2 fun _ _ => 0) crashRun = some s ∧
    LastCommit 2 (fun _ _ => 0) crashRun s.bio.contents ∧ s.bio.contents 100 0 = 7 := by
  have hend : (exec step (boot 2 fun _ _ => 0) crashRun).map
      (fun s => (s.phase, s.ops.length, s.bio.contents 100 0)) = some (.idle, 0, 7) := by
    decide +kernel
  obtain ⟨s, hs, hend⟩ := Option.map_eq_some_iff.mp hend
  simp only [Prod.mk.injEq, List.length_eq_zero_iff] at hend
  exact ⟨s, hs, quiescent_contents fits_zero hs (by decide +kernel) hend.1 hend.2.1, hend.2.2⟩

end
end LiberalOS.Kernel.Log
