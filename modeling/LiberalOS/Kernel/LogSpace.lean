import Mathlib.Algebra.Order.BigOperators.Group.List
import LiberalOS.Kernel.Log

/-!
# Space for the log

What `begin_op` reserves, and what a full log meets. `LOGBLOCKS` and `NBUF` are the same number, and
the log pins its blocks, so that the commit of a full log has no buffer for its first block. It
stops there: `mkfs` has reserved one block less than that log would need.

## Main results

* `logWrite_isSome` — an operation below `MAXOPBLOCKS` never meets a panic of the log.
* `full_log_stuck` — a full log is never written.
* `bget_isSome` — a log with room beside it finds its buffers.
-/
namespace LiberalOS.Kernel.Log
open Foundation Bio

variable {s t : State} {p b : Nat}

/-! ## The reservation -/

/-- The blocks that the operations under way may still add. -/
def reserved (ops : List Op) : Nat := (ops.map fun op => maxopblocks - op.logged.length).sum

/-- What `begin_op` promises as long as operations are under way. -/
structure Reserved (s : State) : Prop where
  idle : s.ops ≠ [] → s.phase = .idle
  space : s.ops ≠ [] → s.lh.length + reserved s.ops ≤ logblocks
  logged : ∀ op ∈ s.ops, ∀ b ∈ op.logged, b ∈ s.lh

theorem reserved_le (ops : List Op) : reserved ops ≤ ops.length * maxopblocks := by
  induction ops with
  | nil => simp [reserved]
  | cons op ops ih =>
    simp only [reserved, List.map_cons, List.sum_cons, List.length_cons, Nat.succ_mul] at ih ⊢
    omega

theorem Op.log_logged (op : Op) (p b : Nat) :
    (op.log p b).logged = if op.pid = p then addBlock op.logged b else op.logged := by
  unfold Op.log
  split <;> rfl

theorem length_addBlock (lh : List Nat) (b : Nat) :
    (addBlock lh b).length = lh.length + if b ∈ lh then 0 else 1 := by
  unfold addBlock
  split <;> simp

theorem reserved_log_le (ops : List Op) (p b : Nat) :
    reserved (ops.map fun op => op.log p b) ≤ reserved ops := by
  induction ops with
  | nil => simp [reserved]
  | cons op ops ih =>
    simp only [reserved, List.map_cons, List.sum_cons, Op.log_logged] at ih ⊢
    have := length_addBlock op.logged b
    split <;> omega

/-- A new block uses up one of those that its operation had reserved. -/
theorem reserved_log_lt {ops : List Op} {op : Op} (h : op ∈ ops) (hp : op.pid = p)
    (hlen : op.logged.length < maxopblocks) (hb : b ∉ op.logged) :
    reserved (ops.map fun op => op.log p b) + 1 ≤ reserved ops := by
  induction ops with
  | nil => cases h
  | cons o ops ih =>
    have hrest := reserved_log_le ops p b
    have hadd := length_addBlock o.logged b
    simp only [reserved, List.map_cons, List.sum_cons, Op.log_logged] at ih hrest ⊢
    obtain rfl | h := List.mem_cons.mp h
    · rw [if_neg hb] at hadd
      rw [if_pos hp]
      omega
    · have := ih h
      split <;> omega

theorem reserved_eraseP_le (ops : List Op) (q : Op → Bool) :
    reserved (ops.eraseP q) ≤ reserved ops :=
  ((List.eraseP_sublist).map _).sum_le_sum fun _ _ => Nat.zero_le _

theorem Reserved.of_empty (h : s.ops = []) : Reserved s :=
  ⟨fun hne => absurd h hne, fun hne => absurd h hne, by simp [h]⟩

/-- A transition that leaves the operations and their log as they are. -/
theorem Reserved.of_same (h : Reserved s) (hops : t.ops = s.ops) (hlh : t.lh = s.lh)
    (hphase : t.phase = s.phase) : Reserved t :=
  ⟨by rw [hops, hphase]; exact h.idle, by rw [hops, hlh]; exact h.space,
    by rw [hops, hlh]; exact h.logged⟩

theorem Reserved.beginOp (h : Reserved s) (hs : step s (.beginOp p) = some t) : Reserved t := by
  simp only [step, Option.ite_none_right_eq_some, Option.some.injEq] at hs
  obtain ⟨⟨hidle, hroom⟩, rfl⟩ := hs
  refine ⟨fun _ => hidle, fun _ => ?_, by simpa using h.logged⟩
  have hle := reserved_le s.ops
  rw [Nat.succ_mul] at hroom
  simp only [reserved, List.map_cons, List.sum_cons, List.length_nil] at hle ⊢
  omega

theorem Reserved.logWrite {i : Fin nbuf} {v : Block} (h : Reserved s)
    (hs : step s (.logWrite p i v) = some t) (hm : Modest s (.logWrite p i v) t) :
    Reserved t := by
  simp only [step, Option.ite_none_right_eq_some, Option.some.injEq] at hs
  obtain ⟨⟨-, hlen, hpos⟩, rfl⟩ := hs
  obtain ⟨op, hop, hp, hroom⟩ := hm
  have hne : s.ops ≠ [] := List.ne_nil_of_mem hop
  have hspace := h.space hne
  generalize (s.bio.buf i).blockno = b at hroom ⊢
  refine ⟨fun _ => h.idle hne, fun _ => ?_, fun o ho c hc => ?_⟩
  · have hadd := length_addBlock s.lh b
    have hle := reserved_log_le s.ops p b
    by_cases hb : b ∈ op.logged
    · rw [if_pos (h.logged op hop b hb)] at hadd
      simp only
      omega
    · have hlt := reserved_log_lt hop hp (hroom.resolve_right hb) hb
      simp only
      split at hadd <;> omega
  · obtain ⟨o', ho', rfl⟩ := List.mem_map.mp ho
    have hold := h.logged o' ho'
    rw [Op.log_logged] at hc
    grind [mem_addBlock]

theorem Reserved.endOp (h : Reserved s) (hs : step s (.endOp p) = some t) : Reserved t := by
  simp only [step, Option.ite_none_right_eq_some, Option.some.injEq] at hs
  obtain ⟨⟨hidle, hany⟩, rfl⟩ := hs
  obtain ⟨op, hop, -⟩ := List.any_eq_true.mp hany
  refine ⟨fun hne => if_pos hne, fun _ => ?_, fun o ho => h.logged o (List.mem_of_mem_eraseP ho)⟩
  have := reserved_eraseP_le s.ops fun op => op.pid = p
  have := h.space (List.ne_nil_of_mem hop)
  simp only
  omega

theorem Reserved.step {l : Label} (h : Reserved s) (hs : step s l = some t) (hm : Modest s l t) :
    Reserved t := by
  -- outside `idle` no operation is under way
  have hnone (hphase : s.phase ≠ .idle) : s.ops = [] := by
    by_contra hne
    exact hphase (h.idle hne)
  cases l with
  | beginOp p => exact h.beginOp hs
  | logWrite p i v => exact h.logWrite hs hm
  | endOp p => exact h.endOp hs
  | bget p b | acquire p i | releasesleep p i | unget p i =>
    obtain ⟨bio, -, rfl⟩ := Option.map_eq_some_iff.mp hs
    exact h.of_same rfl rfl rfl
  | crash =>
    obtain rfl := Option.some.inj hs
    exact .of_empty rfl
  | _ =>
    refine .of_empty ?_
    simp only [Log.step] at hs
    grind [Option.bind_eq_some_iff]

/-- `log_write` tests the size of the log before it looks for the block, so in a full log it panics
also for a block that is there. -/
theorem logWrite_isSome_iff {op : Op} (hop : op ∈ s.ops) {i : Fin nbuf}
    (hlock : (s.bio.buf i).lock = some op.pid) (v : Block) :
    (step s (.logWrite op.pid i v)).isSome ↔ s.lh.length < logblocks := by
  have hpos : 1 ≤ s.ops.length := List.length_pos_of_mem hop
  simp [step, State.Holds, hlock, hpos]

/-- In every run whose operations keep to `MAXOPBLOCKS`, an operation that has logged fewer blocks
can log the one it holds, and every operation can end: `log_write` and `end_op` do not panic. At the
limit `log_write` may panic, as nothing is reserved any more. -/
theorem logWrite_isSome {start : Nat} {disk : Nat → Block} {ls : List Label}
    (hs : exec step (boot start disk) ls = some s) (hm : Along step Modest (boot start disk) ls)
    {op : Op} (hop : op ∈ s.ops) :
    (step s (.endOp op.pid)).isSome ∧ (op.logged.length < maxopblocks →
      ∀ i v, (s.bio.buf i).lock = some op.pid → (step s (.logWrite op.pid i v)).isSome) := by
  have h : Reserved s := exec_invariant_of_along (I := Reserved)
    (fun _ _ _ _ hi hu hm => Reserved.step hi hu hm) (.of_empty rfl) hs hm
  have hne : s.ops ≠ [] := List.ne_nil_of_mem hop
  have hany : s.ops.any (fun o => o.pid = op.pid) = true := List.any_eq_true.mpr ⟨op, hop, by simp⟩
  refine ⟨by simp [step, h.idle hne, hany], fun hlen i v hlock => ?_⟩
  have hmem : maxopblocks - op.logged.length ∈ s.ops.map fun op => maxopblocks - op.logged.length :=
    List.mem_map.mpr ⟨op, hop, rfl⟩
  have hle : maxopblocks - op.logged.length ≤ reserved s.ops :=
    List.single_le_sum (fun _ _ => Nat.zero_le _) _ hmem
  have hspace := h.space hne
  exact (logWrite_isSome_iff hop hlock v).mpr (by omega)

/-- The operation of `crashRun` once it has logged its block. -/
theorem logWrite_isSome_crashRun :
    ∃ s, exec step (boot 2 fun _ _ => 0) (crashRun.take 11) = some s ∧
      (step s (.logWrite 1 1 fun _ => 8)).isSome := by
  have hend : (exec step (boot 2 fun _ _ => 0) (crashRun.take 11)).map
      (fun s => (s.ops.map fun op => (op.pid, op.logged), (s.bio.buf 1).lock)) =
        some ([(1, [100])], some 1) := by
    decide +kernel
  obtain ⟨s, hs, hend⟩ := Option.map_eq_some_iff.mp hend
  simp only [Prod.mk.injEq] at hend
  obtain ⟨hops, hlock⟩ := hend
  obtain ⟨op, hop, hpid⟩ := List.mem_map.mp (hops ▸ List.mem_cons_self)
  obtain ⟨hpid, hlogged⟩ : op.pid = 1 ∧ op.logged = [100] := by simpa using hpid
  have henabled := (logWrite_isSome hs (by decide +kernel) hop).2 (by simp [hlogged]) 1 fun _ => 8
  exact ⟨s, hs, hpid ▸ henabled (hpid ▸ hlock)⟩

/-! ## A full log -/

/-- While a full log waits for its commit nothing but reading goes on. -/
theorem full_log_step {a : AtomicStore Block} {l : Label} {tail : Nat} (h : Inv s a)
    (hs : step s l = some t) (hl : l ≠ .crash) (hphase : s.phase = .writeLog tail)
    (hfull : s.lh.length = logblocks) :
    Inv t a ∧ t.phase = s.phase ∧ t.lh = s.lh ∧ t.bio.disk = s.bio.disk := by
  have hinv := h.phase
  simp only [PhaseInv, hphase] at hinv
  obtain ⟨-, -, hops, -, hlt, -⟩ := hinv
  obtain rfl : tail = 0 := by
    by_contra hne
    exact absurd (hlt (Nat.pos_of_ne_zero hne)) (by omega)
  cases l with
  | bget p b =>
    have h' := h.bget hs
    obtain ⟨bio, hbio, rfl⟩ := Option.map_eq_some_iff.mp hs
    exact ⟨h', rfl, rfl, bget_disk hbio⟩
  | acquire p i =>
    have h' := h.acquire hs
    obtain ⟨bio, hbio, rfl⟩ := Option.map_eq_some_iff.mp hs
    obtain ⟨-, -, rfl⟩ := acquire_eq_some hbio
    exact ⟨h', rfl, rfl, rfl⟩
  | releasesleep p i =>
    have h' := h.releasesleep hs
    obtain ⟨bio, hbio, rfl⟩ := Option.map_eq_some_iff.mp hs
    obtain ⟨-, rfl⟩ := releasesleep_eq_some hbio
    exact ⟨h', rfl, rfl, rfl⟩
  | unget p i =>
    have h' := h.unget hs
    obtain ⟨bio, hbio, rfl⟩ := Option.map_eq_some_iff.mp hs
    obtain ⟨-, -, rfl⟩ := unget_eq_some hbio
    exact ⟨h', rfl, rfl, rfl⟩
  | writeLog p i j =>
    -- the first block in the log would have taken a buffer that is not pinned
    have h' := (h.writeLog hs).phase
    simp only [step, hphase] at hs
    obtain ⟨b, -, hs⟩ := Option.bind_eq_some_iff.mp hs
    simp only [Option.ite_none_right_eq_some, Option.some.injEq] at hs
    obtain ⟨-, rfl⟩ := hs
    exact absurd (h'.2.2.2.2.1 (Nat.succ_pos _)) (by simp only; omega)
  | crash => exact absurd rfl hl
  | _ => grind [step]

/-- A log of `LOGBLOCKS` blocks is never written. Its pinned blocks fill the buffer cache, so that
`bget` of any other block panics, that of the first log block among them; and whatever else
happens, short of a crash, the commit does not get on. -/
theorem full_log_stuck {start : Nat} {disk : Nat → Block} {ls ms : List Label} {tail : Nat}
    (hfits : (layout start).Fits (readHead (disk start)))
    (hs : exec step (boot start disk) ls = some s)
    (hexp : Along step Expected (boot start disk) ls) (hphase : s.phase = .writeLog tail)
    (hfull : s.lh.length = logblocks) (hms : .crash ∉ ms) (ht : exec step s ms = some t) :
    t.phase = .writeLog 0 ∧ t.lh = s.lh ∧ t.bio.disk = s.bio.disk ∧
      (∀ p, step t (.bget p (s.start + 1)) = none) ∧
      ∀ p b, b ∉ s.lh → step t (.bget p b) = none := by
  obtain ⟨a, h⟩ := inv_of_exec hfits hs hexp
  have hinv := h.phase
  simp only [PhaseInv, hphase] at hinv
  obtain ⟨hlog, -, -, -, hlt, -⟩ := hinv
  obtain rfl : tail = 0 := by
    by_contra hne
    exact absurd (hlt (Nat.pos_of_ne_zero hne)) (by omega)
  obtain ⟨h', hphase', hlh, hdisk⟩ : Inv t a ∧ t.phase = s.phase ∧ t.lh = s.lh ∧
      t.bio.disk = s.bio.disk := by
    refine exec_invariant_of_along (C := fun _ _ _ => True)
      (I := fun u => Inv u a ∧ u.phase = s.phase ∧ u.lh = s.lh ∧ u.bio.disk = s.bio.disk)
      (fun u l v hl hu hv _ => ?_) ⟨h, rfl, rfl, rfl⟩ ht (along_true s ms)
    obtain ⟨hu, huphase, hulh, hudisk⟩ := hu
    obtain ⟨hv, hvphase, hvlh, hvdisk⟩ := full_log_step hu hv (fun hc => hms (hc ▸ hl))
      (huphase.trans hphase) (hulh ▸ hfull)
    exact ⟨hv, hvphase.trans huphase, hvlh.trans hulh, hvdisk.trans hudisk⟩
  have hnone (p b : Nat) (hb : b ∉ s.lh) : step t (.bget p b) = none := by
    have hcoh := h'.coherent
    simp only [State.pins, hphase', hphase, hlh] at hcoh
    simp [step, hcoh.bget_eq_none hlog.nodup hfull hb]
  refine ⟨hphase'.trans hphase, hlh, hdisk, fun p => hnone p _ fun hmem => ?_, hnone⟩
  exact absurd rfl ((hlog.home _ hmem).ne_slot (show 0 + 1 < logblocks by decide))

def buffer (k : Nat) : Fin nbuf := ⟨k % nbuf, Nat.mod_lt _ (Nat.succ_pos _)⟩

/-- Three operations that log ten blocks each. -/
def fullRun : List Label :=
  [.bget 0 2, .acquire 0 (buffer 0), .readHead 0 (buffer 0), .erase 0 (buffer 0),
    .releasesleep 0 (buffer 0), .unget 0 (buffer 0), .finish, .beginOp 0, .beginOp 1, .beginOp 2] ++
  ((List.range nbuf).flatMap fun k => [.bget (k / 10) (100 + k), .acquire (k / 10) (buffer (k + 1)),
    .logWrite (k / 10) (buffer (k + 1)) fun _ => 7, .releasesleep (k / 10) (buffer (k + 1)),
    .unget (k / 10) (buffer (k + 1))]) ++
  [.endOp 0, .endOp 1, .endOp 2]

theorem full_log_stuck_fullRun : ∃ s, exec step (boot 2 fun _ _ => 0) fullRun = some s ∧
    ∀ p, step s (.bget p 3) = none := by
  have hend : (exec step (boot 2 fun _ _ => 0) fullRun).map
      (fun s => (s.phase, s.lh.length, s.start)) = some (.writeLog 0, logblocks, 2) := by
    decide +kernel
  obtain ⟨s, hs, hend⟩ := Option.map_eq_some_iff.mp hend
  simp only [Prod.mk.injEq] at hend
  obtain ⟨hphase, hfull, hstart⟩ := hend
  obtain ⟨-, -, -, hnone, -⟩ := full_log_stuck fits_zero hs (by decide +kernel) hphase hfull
    (List.not_mem_nil (a := Label.crash)) (exec_nil s)
  exact ⟨s, hs, by simpa [hstart] using hnone⟩

/-- Beside a log with room for the buffers that processes have there is a buffer for every block, so
that `bread` goes on. -/
theorem bget_isSome {start : Nat} {disk : Nat → Block} {ls : List Label}
    (hfits : (layout start).Fits (readHead (disk start)))
    (hs : exec step (boot start disk) ls = some s)
    (hexp : Along step Expected (boot start disk) ls)
    (hroom : s.lh.length + s.bio.inUse.card < nbuf) (p b : Nat) :
    (step s (.bget p b)).isSome := by
  obtain ⟨a, h⟩ := inv_of_exec hfits hs hexp
  have hpins : s.pins.length ≤ s.lh.length := by
    unfold State.pins
    split <;> simp
  simpa [step] using h.coherent.bget_of_room (by omega) p b

theorem bget_isSome_crashRun : ∃ s, exec step (boot 2 fun _ _ => 0) crashRun = some s ∧
    (step s (.bget 0 100)).isSome := by
  have hend : (exec step (boot 2 fun _ _ => 0) crashRun).map
      (fun s => decide (s.lh.length + s.bio.inUse.card < nbuf)) = some true := by
    decide +kernel
  obtain ⟨s, hs, hend⟩ := Option.map_eq_some_iff.mp hend
  exact ⟨s, hs, bget_isSome fits_zero hs (by decide +kernel) (of_decide_eq_true hend) 0 100⟩

end LiberalOS.Kernel.Log
