import Mathlib.Data.List.FinRange
import Mathlib.Data.Fintype.Card
import Mathlib.Logic.Function.Basic
import LiberalOS.Foundation.Execution

/-!
# The buffer cache

`kernel/bio.c`: the buffers of `bcache`, their list by last use, and the disk. A process that got a
buffer from `bget` has a reference until `brelse` has given it back, and it may use the contents
while it holds the sleep-lock of the buffer. `bget` finds the buffer of the block or recycles the
least recently used one without references; its panic is `none`.

`Coherent` is what holds between two critical sections. The blocks in `pins` are those that
`log_write` has pinned: only for them may a buffer differ from the disk.

## Main results

* `Coherent.bget`, `Coherent.acquire`, `Coherent.releasesleep`, `Coherent.unget` — the operations
  of `bread` and `brelse` keep it, and they do not change what a block contains.
* `Coherent.pins_length_lt` — a buffer for one more block leaves fewer than `NBUF` for the others.
-/
namespace LiberalOS.Kernel.Bio
open Foundation

abbrev nbuf : Nat := 30
abbrev rootdev : Nat := 1

/-- The bytes of a block. -/
abbrev Block : Type := Nat → UInt8

/-- `struct buf`; the sleep-lock is the process that holds it. -/
structure Buf where
  valid : Bool
  dev : Nat
  blockno : Nat
  lock : Option Nat
  refcnt : Nat
  data : Block

/-- The buffers, `head.next` and so on, the blocks of the disk, and the buffers that processes got
from `bget` and have not given back. -/
structure State where
  buf : Fin nbuf → Buf
  lru : List (Fin nbuf)
  disk : Nat → Block
  refs : List (Nat × Fin nbuf)

/-- `binit` puts every buffer at the front of the list. -/
def binit (disk : Nat → Block) : State where
  buf _ := ⟨false, 0, 0, none, 0, fun _ => 0⟩
  lru := (List.finRange nbuf).reverse
  disk := disk
  refs := []

def State.setBuf (s : State) (i : Fin nbuf) (x : Buf) : State :=
  { s with buf := Function.update s.buf i x }

/-! ## Operations -/

/-- The first loop of `bget`. -/
def State.lookup (s : State) (dev blockno : Nat) : Option (Fin nbuf) :=
  s.lru.find? fun i => (s.buf i).dev = dev ∧ (s.buf i).blockno = blockno

/-- The second loop of `bget`. -/
def State.unused (s : State) : Option (Fin nbuf) :=
  s.lru.reverse.find? fun i => (s.buf i).refcnt = 0

/-- `bget` up to its `acquiresleep`. -/
def bget (s : State) (p dev blockno : Nat) : Option State :=
  match s.lookup dev blockno with
  | some i =>
    let b := s.buf i
    some { s.setBuf i { b with refcnt := b.refcnt + 1 } with refs := (p, i) :: s.refs }
  | none =>
    s.unused.map fun i =>
      let b := s.buf i
      { s.setBuf i { b with dev := dev, blockno := blockno, valid := false, refcnt := 1 } with
        refs := (p, i) :: s.refs }

/-- The `acquiresleep` of `bget`; `bread` reads a buffer that is not valid. -/
def acquire (s : State) (p : Nat) (i : Fin nbuf) : Option State :=
  let b := s.buf i
  if (p, i) ∈ s.refs ∧ b.lock = none then
    some (s.setBuf i { b with
      lock := some p, valid := true
      data := if b.valid then b.data else s.disk b.blockno })
  else none

/-- The first half of `brelse`; without the lock it is a panic. -/
def releasesleep (s : State) (p : Nat) (i : Fin nbuf) : Option State :=
  if (s.buf i).lock = some p then some (s.setBuf i { s.buf i with lock := none }) else none

/-- The second half of `brelse`: a buffer without references becomes the most recent one. -/
def unget (s : State) (p : Nat) (i : Fin nbuf) : Option State :=
  let b := s.buf i
  if (p, i) ∈ s.refs ∧ b.lock ≠ some p then
    some { s.setBuf i { b with refcnt := b.refcnt - 1 } with
      refs := s.refs.erase (p, i)
      lru := if b.refcnt - 1 = 0 then i :: s.lru.erase i else s.lru }
  else none

/-- The holder of a buffer changes its bytes. -/
def State.fill (s : State) (i : Fin nbuf) (v : Block) : State :=
  s.setBuf i { s.buf i with data := v }

def bwrite (s : State) (i : Fin nbuf) : State :=
  { s with disk := Function.update s.disk (s.buf i).blockno (s.buf i).data }

def bpin (s : State) (i : Fin nbuf) : State :=
  s.setBuf i { s.buf i with refcnt := (s.buf i).refcnt + 1 }

def bunpin (s : State) (i : Fin nbuf) : State :=
  s.setBuf i { s.buf i with refcnt := (s.buf i).refcnt - 1 }

/-- What `bread` of a block returns when nobody else holds it. -/
def State.contents (s : State) (b : Nat) : Block :=
  match s.lru.find? fun i => (s.buf i).valid ∧ (s.buf i).dev = rootdev ∧ (s.buf i).blockno = b with
  | some i => (s.buf i).data
  | none => s.disk b

/-! ## The invariant -/

def Buf.Caches (x : Buf) (b : Nat) : Prop := x.dev = rootdev ∧ x.blockno = b

def Buf.Pinned (x : Buf) (pins : List Nat) : Prop := x.dev = rootdev ∧ x.blockno ∈ pins

instance (x : Buf) (pins : List Nat) : Decidable (x.Pinned pins) :=
  inferInstanceAs (Decidable (_ ∧ _))

/-- The number of references that processes have to a buffer. -/
def State.users (s : State) (i : Fin nbuf) : Nat := (s.refs.map Prod.snd).count i

/-- The buffers that processes have. -/
def State.inUse (s : State) : Finset (Fin nbuf) := (s.refs.map Prod.snd).toFinset

theorem State.card_inUse_le (s : State) : s.inUse.card ≤ s.refs.length :=
  (List.toFinset_card_le _).trans_eq (List.length_map _)

structure Coherent (s : State) (pins : List Nat) : Prop where
  lru : s.lru.Perm (List.finRange nbuf)
  unique : ∀ i j b, (s.buf i).Caches b → (s.buf j).Caches b → i = j
  count : ∀ i, (s.buf i).refcnt = s.users i + if (s.buf i).Pinned pins then 1 else 0
  dev : ∀ i, (s.buf i).refcnt ≠ 0 ∨ (s.buf i).valid = true → (s.buf i).dev = rootdev
  held : ∀ i p, (s.buf i).lock = some p → (p, i) ∈ s.refs ∧ (s.buf i).valid = true
  pinned : ∀ b ∈ pins, ∃ i, (s.buf i).Caches b ∧ (s.buf i).valid = true
  clean : ∀ i, (s.buf i).valid = true → (s.buf i).blockno ∉ pins →
    (s.buf i).data = s.disk (s.buf i).blockno

/-! ## Reading the invariant -/

section
variable {s t : State} {pins : List Nat} {i : Fin nbuf} {p b : Nat}

@[simp] theorem State.setBuf_self (s : State) (i : Fin nbuf) (x : Buf) :
    (s.setBuf i x).buf i = x := Function.update_self _ _ _

@[grind =] theorem State.setBuf_buf (s : State) (i j : Fin nbuf) (x : Buf) :
    (s.setBuf i x).buf j = if j = i then x else s.buf j := Function.update_apply _ _ _ _

theorem State.setBuf_of_ne (s : State) {i j : Fin nbuf} (h : j ≠ i) (x : Buf) :
    (s.setBuf i x).buf j = s.buf j := Function.update_of_ne h _ _

@[simp, grind =] theorem State.setBuf_lru (s : State) (i : Fin nbuf) (x : Buf) :
    (s.setBuf i x).lru = s.lru := rfl

@[simp, grind =] theorem State.setBuf_disk (s : State) (i : Fin nbuf) (x : Buf) :
    (s.setBuf i x).disk = s.disk := rfl

@[simp, grind =] theorem State.setBuf_refs (s : State) (i : Fin nbuf) (x : Buf) :
    (s.setBuf i x).refs = s.refs := rfl

theorem State.users_pos_of_mem (h : (p, i) ∈ s.refs) : 0 < s.users i :=
  List.count_pos_iff.mpr (List.mem_map.mpr ⟨_, h, rfl⟩)

theorem Coherent.mem_lru (h : Coherent s pins) (i : Fin nbuf) : i ∈ s.lru :=
  h.lru.mem_iff.mpr (List.mem_finRange i)

/-- A referenced buffer is not recycled. -/
theorem Coherent.refcnt_ne_zero (h : Coherent s pins) (hp : (p, i) ∈ s.refs) :
    (s.buf i).refcnt ≠ 0 := by
  have := h.count i
  have := State.users_pos_of_mem hp
  omega

theorem Coherent.caches_of_mem (h : Coherent s pins) (hp : (p, i) ∈ s.refs) :
    (s.buf i).Caches (s.buf i).blockno := ⟨h.dev i (Or.inl (h.refcnt_ne_zero hp)), rfl⟩

theorem Coherent.refcnt_ne_zero_of_pinned (h : Coherent s pins) (hi : (s.buf i).Pinned pins) :
    (s.buf i).refcnt ≠ 0 := by
  have := h.count i
  rw [if_pos hi] at this
  omega

theorem Coherent.contents_of_caches (h : Coherent s pins) (hi : (s.buf i).Caches b)
    (hvalid : (s.buf i).valid = true) : s.contents b = (s.buf i).data := by
  unfold State.contents
  split
  · next j hj =>
    have hcaches := List.find?_some hj
    simp only [decide_eq_true_eq] at hcaches
    rw [h.unique j i b hcaches.2 hi]
  · next hnone =>
    have := List.find?_eq_none.mp hnone i (h.mem_lru i)
    simp only [decide_eq_true_eq] at this
    exact absurd ⟨hvalid, hi⟩ this

/-- Only a pinned block may differ from the disk. -/
theorem Coherent.contents_of_notMem (h : Coherent s pins) (hb : b ∉ pins) :
    s.contents b = s.disk b := by
  unfold State.contents
  split
  · next j hj =>
    have hcaches := List.find?_some hj
    simp only [decide_eq_true_eq] at hcaches
    obtain ⟨hvalid, -, rfl⟩ := hcaches
    exact h.clean j hvalid hb
  · rfl

/-- A step that leaves the disk and the referenced buffers as they are changes no contents. -/
theorem Coherent.contents_eq (h : Coherent s pins) (h' : Coherent t pins) (hdisk : t.disk = s.disk)
    (hkeep : ∀ i b, (s.buf i).refcnt ≠ 0 → (s.buf i).valid = true → (s.buf i).Caches b →
      (t.buf i).Caches b ∧ (t.buf i).valid = true ∧ (t.buf i).data = (s.buf i).data) :
    t.contents = s.contents := by
  funext b
  by_cases hb : b ∈ pins
  · obtain ⟨i, hi, hvalid⟩ := h.pinned b hb
    have hpinned : (s.buf i).Pinned pins := ⟨hi.1, hi.2 ▸ hb⟩
    obtain ⟨hi', hvalid', hdata⟩ := hkeep i b (h.refcnt_ne_zero_of_pinned hpinned) hvalid hi
    rw [h.contents_of_caches hi hvalid, h'.contents_of_caches hi' hvalid', hdata]
  · rw [h.contents_of_notMem hb, h'.contents_of_notMem hb, hdisk]

theorem Coherent.binit (disk : Nat → Block) : Coherent (binit disk) [] where
  lru := List.reverse_perm _
  unique i j b hi := by simp [Bio.binit, Buf.Caches] at hi
  count i := by simp [Bio.binit, State.users, Buf.Pinned]
  dev i hi := by simp [Bio.binit] at hi
  held i p hi := by simp [Bio.binit] at hi
  pinned b hb := by simp at hb
  clean i hi := by simp [Bio.binit] at hi

/-! ## The operations keep the invariant -/

theorem users_cons (s : State) (p : Nat) (i j : Fin nbuf) :
    (((p, i) :: s.refs).map Prod.snd).count j = s.users j + if i = j then 1 else 0 := by
  simp [State.users, List.count_cons]

theorem users_erase (h : (p, i) ∈ s.refs) (j : Fin nbuf) :
    ((s.refs.erase (p, i)).map Prod.snd).count j + (if i = j then 1 else 0) = s.users j := by
  have hperm := ((List.perm_cons_erase h).map Prod.snd).count_eq j
  rw [State.users, hperm]
  simp [List.count_cons]

/-- The two ways in which `bget` finds a buffer. -/
theorem bget_cases {dev : Nat} (hlru : ∀ i, i ∈ s.lru) (hs : bget s p dev b = some t) :
    ∃ i x, t = { s.setBuf i x with refs := (p, i) :: s.refs } ∧
      (((s.buf i).dev = dev ∧ (s.buf i).blockno = b ∧
          x = { s.buf i with refcnt := (s.buf i).refcnt + 1 }) ∨
        ((s.buf i).refcnt = 0 ∧ (∀ j, ¬((s.buf j).dev = dev ∧ (s.buf j).blockno = b)) ∧
          x = { s.buf i with dev := dev, blockno := b, valid := false, refcnt := 1 })) := by
  unfold bget at hs
  split at hs
  · next i hi =>
    have hfound := List.find?_some hi
    simp only [decide_eq_true_eq] at hfound
    obtain rfl := Option.some.inj hs
    exact ⟨i, _, rfl, Or.inl ⟨hfound.1, hfound.2, rfl⟩⟩
  · next hnone =>
    obtain ⟨i, hi, rfl⟩ := Option.map_eq_some_iff.mp hs
    have hfree := List.find?_some hi
    simp only [decide_eq_true_eq] at hfree
    refine ⟨i, _, rfl, Or.inr ⟨hfree, fun j hj => ?_, rfl⟩⟩
    simpa [hj] using List.find?_eq_none.mp hnone j (hlru j)

/-- The same block with the same contents; references and lock may differ. -/
def Buf.Same (x y : Buf) : Prop :=
  x.valid = y.valid ∧ x.dev = y.dev ∧ x.blockno = y.blockno ∧ x.data = y.data

theorem Coherent.of_same (h : Coherent s pins) (hlru : t.lru.Perm s.lru) (hdisk : t.disk = s.disk)
    (hsame : ∀ i, (t.buf i).Same (s.buf i))
    (hcount : ∀ i, (t.buf i).refcnt = t.users i + if (t.buf i).Pinned pins then 1 else 0)
    (hdev : ∀ i, (t.buf i).refcnt ≠ 0 → (s.buf i).refcnt ≠ 0 ∨ (s.buf i).dev = rootdev)
    (hheld : ∀ i p, (t.buf i).lock = some p → (p, i) ∈ t.refs ∧ (s.buf i).lock = some p) :
    Coherent t pins where
  lru := hlru.trans h.lru
  unique i j b := by
    obtain ⟨-, hi, hi', -⟩ := hsame i
    obtain ⟨-, hj, hj', -⟩ := hsame j
    simpa only [Buf.Caches, hi, hi', hj, hj'] using h.unique i j b
  count := hcount
  dev i hi := by
    have := h.dev i
    grind [Buf.Same]
  held i p hi := by
    have := (h.held i p (hheld i p hi).2).2
    grind [Buf.Same]
  pinned b hb := by
    obtain ⟨i, hi⟩ := h.pinned b hb
    obtain ⟨hvalid, hdev', hblockno, -⟩ := hsame i
    exact ⟨i, by simpa only [Buf.Caches, hvalid, hdev', hblockno] using hi⟩
  clean i := by
    have := h.clean i
    grind [Buf.Same]

theorem Coherent.bget (h : Coherent s pins) (hs : bget s p rootdev b = some t) :
    Coherent t pins := by
  obtain ⟨i, x, rfl, ⟨hdev, hblockno, rfl⟩ | ⟨hfree, hnew, rfl⟩⟩ := bget_cases h.mem_lru hs
  · have hcount := h.count
    have hheld := h.held
    refine h.of_same (.refl _) rfl (fun j => ?_) (fun j => ?_) (fun j => ?_) fun j q => ?_
    · grind [Buf.Same]
    · rw [State.users, users_cons]
      grind [Buf.Pinned]
    · grind
    · grind
  · have hfree' : ∀ q, (q, i) ∉ s.refs := fun q hq => h.refcnt_ne_zero hq hfree
    have hpins : b ∉ pins := fun hb => by
      obtain ⟨j, hj, -⟩ := h.pinned b hb
      exact hnew j hj
    have hunpinned : ¬(s.buf i).Pinned pins := fun hi => h.refcnt_ne_zero_of_pinned hi hfree
    constructor
    · exact h.lru
    · have := h.unique
      grind [Buf.Caches]
    · intro j
      have := h.count j
      rw [State.users, users_cons]
      grind [Buf.Pinned]
    · have := h.dev
      grind
    · have := h.held
      grind
    · intro c hc
      obtain ⟨j, hj, hvalid⟩ := h.pinned c hc
      have hji : j ≠ i := by rintro rfl; exact hunpinned ⟨hj.1, hj.2 ▸ hc⟩
      exact ⟨j, by simpa [State.setBuf_of_ne _ hji] using ⟨hj, hvalid⟩⟩
    · intro j hvalid hj
      have := h.clean j
      grind

theorem bget_keeps (h : Coherent s pins) (hs : bget s p rootdev b = some t) {j : Fin nbuf} {c : Nat}
    (href : (s.buf j).refcnt ≠ 0) (hvalid : (s.buf j).valid = true) (hj : (s.buf j).Caches c) :
    (t.buf j).Caches c ∧ (t.buf j).valid = true ∧ (t.buf j).data = (s.buf j).data := by
  obtain ⟨i, x, rfl, ⟨hdev, hblockno, rfl⟩ | ⟨hfree, hnew, rfl⟩⟩ := bget_cases h.mem_lru hs
  · grind [Buf.Caches]
  · grind [Buf.Caches]

theorem bget_disk {dev : Nat} (hs : bget s p dev b = some t) : t.disk = s.disk := by
  unfold bget at hs
  split at hs
  · obtain rfl := Option.some.inj hs
    rfl
  · obtain ⟨i, -, rfl⟩ := Option.map_eq_some_iff.mp hs
    rfl

theorem Coherent.contents_bget (h : Coherent s pins) (hs : Bio.bget s p rootdev b = some t) :
    t.contents = s.contents :=
  h.contents_eq (h.bget hs) (bget_disk hs) fun _ _ href hvalid hj => bget_keeps h hs href hvalid hj

theorem acquire_eq_some (hs : acquire s p i = some t) :
    (p, i) ∈ s.refs ∧ (s.buf i).lock = none ∧ t = s.setBuf i { s.buf i with
      lock := some p, valid := true
      data := if (s.buf i).valid then (s.buf i).data else s.disk (s.buf i).blockno } := by
  simp only [acquire, Option.ite_none_right_eq_some, Option.some.injEq] at hs
  exact ⟨hs.1.1, hs.1.2, hs.2.symm⟩

theorem Coherent.acquire (h : Coherent s pins) (hs : acquire s p i = some t) :
    Coherent t pins := by
  obtain ⟨hp, hlock, rfl⟩ := acquire_eq_some hs
  have hcaches := h.caches_of_mem hp
  constructor
  · exact h.lru
  · have := h.unique
    grind [Buf.Caches]
  · intro j
    have := h.count j
    simp only [State.users, State.setBuf_refs] at this ⊢
    grind [Buf.Pinned]
  · have := h.dev
    have := hcaches.1
    grind
  · have := h.held
    grind
  · intro c hc
    obtain ⟨j, hj, hvalid⟩ := h.pinned c hc
    exact ⟨j, by grind [Buf.Caches]⟩
  · intro j hvalid hj
    have := h.clean j
    grind

theorem Coherent.contents_acquire (h : Coherent s pins) (hs : Bio.acquire s p i = some t) :
    t.contents = s.contents := by
  refine h.contents_eq (h.acquire hs) ?_ fun j c href hvalid hj => ?_
  · obtain ⟨-, -, rfl⟩ := acquire_eq_some hs
    rfl
  · obtain ⟨-, -, rfl⟩ := acquire_eq_some hs
    grind [Buf.Caches]

theorem releasesleep_eq_some (hs : releasesleep s p i = some t) :
    (s.buf i).lock = some p ∧ t = s.setBuf i { s.buf i with lock := none } := by
  simp only [releasesleep, Option.ite_none_right_eq_some, Option.some.injEq] at hs
  exact ⟨hs.1, hs.2.symm⟩

theorem unget_eq_some (hs : unget s p i = some t) :
    (p, i) ∈ s.refs ∧ (s.buf i).lock ≠ some p ∧
      t = { s.setBuf i { s.buf i with refcnt := (s.buf i).refcnt - 1 } with
        refs := s.refs.erase (p, i)
        lru := if (s.buf i).refcnt - 1 = 0 then i :: s.lru.erase i else s.lru } := by
  simp only [unget, Option.ite_none_right_eq_some, Option.some.injEq] at hs
  exact ⟨hs.1.1, hs.1.2, hs.2.symm⟩

theorem Coherent.releasesleep (h : Coherent s pins) (hs : releasesleep s p i = some t) :
    Coherent t pins := by
  obtain ⟨hlock, rfl⟩ := releasesleep_eq_some hs
  have hheld := h.held
  refine h.of_same (.refl _) rfl (fun j => ?_) (fun j => ?_) (fun j => ?_) fun j q => ?_
  · grind [Buf.Same]
  · have := h.count j
    simp only [State.users, State.setBuf_refs] at this ⊢
    grind [Buf.Pinned]
  · grind
  · grind

theorem Coherent.unget (h : Coherent s pins) (hs : unget s p i = some t) : Coherent t pins := by
  obtain ⟨hp, hlock, rfl⟩ := unget_eq_some hs
  have hheld := h.held
  refine h.of_same ?_ rfl (fun j => ?_) (fun j => ?_) (fun j => ?_) fun j q hj => ?_
  · simp only
    split
    · exact (List.perm_cons_erase (h.mem_lru i)).symm
    · exact .refl _
  · grind [Buf.Same]
  · have := h.count j
    have := users_erase hp j
    have := State.users_pos_of_mem hp
    rw [State.users]
    grind [Buf.Pinned]
  · grind
  · -- the lock of the buffer belongs to somebody else, who keeps the reference
    have hjq : (s.buf j).lock = some q := by grind
    refine ⟨(List.mem_erase_of_ne ?_).mpr (hheld j q hjq).1, hjq⟩
    grind

theorem Coherent.contents_releasesleep (h : Coherent s pins)
    (hs : Bio.releasesleep s p i = some t) : t.contents = s.contents := by
  refine h.contents_eq (h.releasesleep hs) ?_ fun j c href hvalid hj => ?_
  · obtain ⟨-, rfl⟩ := releasesleep_eq_some hs
    rfl
  · obtain ⟨-, rfl⟩ := releasesleep_eq_some hs
    grind [Buf.Caches]

theorem Coherent.contents_unget (h : Coherent s pins) (hs : Bio.unget s p i = some t) :
    t.contents = s.contents := by
  refine h.contents_eq (h.unget hs) ?_ fun j c href hvalid hj => ?_
  · obtain ⟨-, -, rfl⟩ := unget_eq_some hs
    rfl
  · obtain ⟨-, -, rfl⟩ := unget_eq_some hs
    grind [Buf.Caches]

/-! ## Writes and pins -/

/-- The buffer `i` gets the bytes `v`, and its block may go to the disk, be pinned or unpinned. A
block that ends up unpinned is on the disk. -/
structure Stores (s t : State) (pins pins' : List Nat) (i : Fin nbuf) (v : Block) : Prop where
  buf : ∀ j, t.buf j =
    if j = i then { s.buf i with refcnt := (t.buf i).refcnt, data := v } else s.buf j
  lru : t.lru = s.lru
  refs : t.refs = s.refs
  mem : ∀ b, b ≠ (s.buf i).blockno → (b ∈ pins' ↔ b ∈ pins)
  refcnt : (t.buf i).refcnt + (if (s.buf i).blockno ∈ pins then 1 else 0) =
    (s.buf i).refcnt + if (s.buf i).blockno ∈ pins' then 1 else 0
  disk : ∀ b, b ≠ (s.buf i).blockno → t.disk b = s.disk b
  written : (s.buf i).blockno ∉ pins' → t.disk (s.buf i).blockno = v

section
variable {pins' : List Nat} {v : Block}

theorem Stores.caches (hw : Stores s t pins pins' i v) (j : Fin nbuf) :
    ((t.buf j).Caches b ↔ (s.buf j).Caches b) ∧ (t.buf j).valid = (s.buf j).valid := by
  rw [hw.buf j]
  grind [Buf.Caches]

theorem Coherent.stores (h : Coherent s pins) (hp : (s.buf i).lock = some p)
    (hw : Stores s t pins pins' i v) : Coherent t pins' := by
  obtain ⟨href, hvalid⟩ := h.held i p hp
  have hcaches := h.caches_of_mem href
  constructor
  · exact hw.lru ▸ h.lru
  · intro j k b hj hk
    exact h.unique j k b ((hw.caches j).1.mp hj) ((hw.caches k).1.mp hk)
  · intro j
    have hcount := h.count j
    have hrefcnt := hw.refcnt
    have hunique := h.unique j i (s.buf i).blockno
    have hpins := hw.mem (s.buf j).blockno
    simp only [State.users, hw.refs, hw.buf j] at hcount ⊢
    grind [Buf.Pinned, Buf.Caches]
  · intro j hj
    have hdev := h.dev j
    have := hcaches.1
    rw [hw.buf j] at hj ⊢
    grind
  · intro j q hj
    have hheld := h.held j q
    rw [hw.buf j] at hj
    rw [hw.refs, (hw.caches j (b := 0)).2]
    grind
  · intro c hc
    by_cases hci : c = (s.buf i).blockno
    · exact ⟨i, (hw.caches i).1.mpr (hci ▸ hcaches), (hw.caches i (b := 0)).2.trans hvalid⟩
    · obtain ⟨j, hj, hvalid'⟩ := h.pinned c ((hw.mem c hci).mp hc)
      exact ⟨j, (hw.caches j).1.mpr hj, (hw.caches j (b := 0)).2.trans hvalid'⟩
  · intro j hj hpins
    have hclean := h.clean j
    have hdev := h.dev j
    have hunique := h.unique j i (s.buf i).blockno
    have hdisk := hw.disk (s.buf j).blockno
    have hiff := hw.mem (s.buf j).blockno
    have hwritten := hw.written
    rw [hw.buf j] at hj hpins ⊢
    grind [Buf.Caches]

theorem Coherent.contents_stores (h : Coherent s pins) (hp : (s.buf i).lock = some p)
    (hw : Stores s t pins pins' i v) :
    t.contents = Function.update s.contents (s.buf i).blockno v := by
  obtain ⟨href, hvalid⟩ := h.held i p hp
  have h' := h.stores hp hw
  funext c
  by_cases hci : c = (s.buf i).blockno
  · have hi : (t.buf i).Caches c := (hw.caches i).1.mpr (hci ▸ h.caches_of_mem href)
    rw [h'.contents_of_caches hi ((hw.caches i (b := 0)).2.trans hvalid), hci,
      Function.update_self, hw.buf i, if_pos rfl]
  · rw [Function.update_of_ne hci]
    by_cases hc : c ∈ pins
    · obtain ⟨j, hj, hvalid'⟩ := h.pinned c hc
      have hji : j ≠ i := by
        rintro rfl
        exact hci hj.2.symm
      rw [h.contents_of_caches hj hvalid', h'.contents_of_caches ((hw.caches j).1.mpr hj)
        ((hw.caches j (b := 0)).2.trans hvalid'), hw.buf j, if_neg hji]
    · rw [h.contents_of_notMem hc, h'.contents_of_notMem (mt (hw.mem c hci).mp hc),
        hw.disk c hci]

end

@[simp, grind =] theorem State.fill_buf (s : State) (i j : Fin nbuf) (v : Block) :
    (s.fill i v).buf j = if j = i then { s.buf i with data := v } else s.buf j := s.setBuf_buf i j _

@[simp, grind =] theorem State.fill_lru (s : State) (i : Fin nbuf) (v : Block) :
    (s.fill i v).lru = s.lru := rfl

@[simp, grind =] theorem State.fill_disk (s : State) (i : Fin nbuf) (v : Block) :
    (s.fill i v).disk = s.disk := rfl

@[simp, grind =] theorem State.fill_refs (s : State) (i : Fin nbuf) (v : Block) :
    (s.fill i v).refs = s.refs := rfl

@[simp, grind =] theorem bwrite_buf (s : State) (i j : Fin nbuf) :
    (bwrite s i).buf j = s.buf j := rfl

@[simp, grind =] theorem bwrite_lru (s : State) (i : Fin nbuf) : (bwrite s i).lru = s.lru := rfl

@[simp, grind =] theorem bwrite_refs (s : State) (i : Fin nbuf) : (bwrite s i).refs = s.refs := rfl

@[grind =] theorem bwrite_disk (s : State) (i : Fin nbuf) (b : Nat) :
    (bwrite s i).disk b = if b = (s.buf i).blockno then (s.buf i).data else s.disk b :=
  Function.update_apply _ _ _ _

@[simp, grind =] theorem bunpin_disk (s : State) (i : Fin nbuf) (b : Nat) :
    (bunpin s i).disk b = s.disk b := rfl

/-- A block is written to the disk. -/
theorem stores_bwrite (s : State) (pins : List Nat) (i : Fin nbuf) (v : Block) :
    Stores s (bwrite (s.fill i v) i) pins pins i v := by
  constructor <;> grind

/-- A pinned block is written to the disk and unpinned. -/
theorem stores_install {b : Nat} (hi : (s.buf i).blockno = b) (hb : b ∉ pins)
    (hpos : 0 < (s.buf i).refcnt) (v : Block) :
    Stores s (bunpin (bwrite (s.fill i v) i) i) (b :: pins) pins i v := by
  constructor <;> grind [bunpin]

/-- `log.lh.block` after `log_write` of a block. -/
def addBlock (lh : List Nat) (b : Nat) : List Nat := if b ∈ lh then lh else lh ++ [b]

/-- The holder of a buffer changes it, and `log_write` pins it unless its block is in the log. -/
def State.logged (s : State) (lh : List Nat) (i : Fin nbuf) (v : Block) : State :=
  if (s.buf i).blockno ∈ lh then s.fill i v else bpin (s.fill i v) i

theorem stores_logged (s : State) (lh : List Nat) (i : Fin nbuf) (v : Block) :
    Stores s (s.logged lh i v) lh (addBlock lh (s.buf i).blockno) i v := by
  constructor <;> grind [State.logged, addBlock, bpin]

/-! ## Running out of buffers -/

/-- Besides a buffer that is not pinned there are fewer than `NBUF`. -/
theorem Coherent.pins_length_lt (h : Coherent s pins) (hpins : pins.Nodup)
    (hi : ¬(s.buf i).Pinned pins) : pins.length < nbuf := by
  have hsub : pins.toFinset ⊆
      (Finset.univ.erase i).image fun j => (s.buf j).blockno := by
    intro b hb
    have hb := List.mem_toFinset.mp hb
    obtain ⟨j, hj, -⟩ := h.pinned b hb
    have hji : j ≠ i := by
      rintro rfl
      exact hi ⟨hj.1, hj.2 ▸ hb⟩
    exact Finset.mem_image.mpr ⟨j, Finset.mem_erase.mpr ⟨hji, Finset.mem_univ j⟩, hj.2⟩
  have hcard := (Finset.card_le_card hsub).trans Finset.card_image_le
  rw [List.toFinset_card_of_nodup hpins, Finset.card_erase_of_mem (Finset.mem_univ i),
    Finset.card_univ, Fintype.card_fin] at hcard
  exact hcard.trans_lt (by decide)

/-- `bget` panics when the block is not cached and every buffer is referenced. -/
theorem bget_eq_none_iff (hlru : ∀ i, i ∈ s.lru) {dev : Nat} :
    bget s p dev b = none ↔
      ∀ i, ¬((s.buf i).dev = dev ∧ (s.buf i).blockno = b) ∧ (s.buf i).refcnt ≠ 0 := by
  unfold bget
  split
  · next i hi =>
    have hfound := List.find?_some hi
    simp only [decide_eq_true_eq] at hfound
    simp only [reduceCtorEq, false_iff]
    exact fun hall => (hall i).1 hfound
  · next hnone =>
    have hnew : ∀ i, ¬((s.buf i).dev = dev ∧ (s.buf i).blockno = b) := fun i hi => by
      simpa [hi] using List.find?_eq_none.mp hnone i (hlru i)
    simp only [Option.map_eq_none_iff, State.unused, List.find?_eq_none, List.mem_reverse,
      decide_eq_true_eq]
    exact ⟨fun hall i => ⟨hnew i, hall i (hlru i)⟩, fun hall i _ => (hall i).2⟩

/-- When the pinned blocks fill the cache, no other block can be read. -/
theorem Coherent.bget_eq_none (h : Coherent s pins) (hpins : pins.Nodup)
    (hfull : pins.length = nbuf) (hb : b ∉ pins) (p : Nat) : Bio.bget s p rootdev b = none := by
  have hall (i : Fin nbuf) : (s.buf i).Pinned pins := by
    by_contra hi
    exact (h.pins_length_lt hpins hi).ne hfull
  refine (bget_eq_none_iff h.mem_lru).mpr fun i => ⟨fun hi => hb ?_, ?_⟩
  · exact hi.2 ▸ (hall i).2
  · exact h.refcnt_ne_zero_of_pinned (hall i)

/-- A buffer with references is pinned or somebody has it, so that with few of them one is free. -/
theorem Coherent.bget_of_room (h : Coherent s pins)
    (hroom : pins.length + s.inUse.card < nbuf) (p b : Nat) :
    (Bio.bget s p rootdev b).isSome := by
  rw [Option.isSome_iff_ne_none]
  intro hnone
  have hall := (bget_eq_none_iff h.mem_lru).mp hnone
  have hused : (Finset.univ : Finset (Fin nbuf)) ⊆
      s.inUse ∪ Finset.univ.filter fun i => (s.buf i).Pinned pins := by
    intro i _
    have hcount := h.count i
    have hrefcnt := (hall i).2
    by_cases hi : (s.buf i).Pinned pins
    · simp [hi]
    · rw [if_neg hi] at hcount
      have hmem : i ∈ s.refs.map Prod.snd := List.count_pos_iff.mp
        (Nat.pos_of_ne_zero (by simpa [State.users, hcount] using hrefcnt))
      exact Finset.mem_union_left _ (List.mem_toFinset.mpr hmem)
  have hpinned : (Finset.univ.filter fun i => (s.buf i).Pinned pins).card ≤ pins.length := by
    refine (Finset.card_le_card_of_injOn (t := pins.toFinset) (fun i => (s.buf i).blockno)
      (fun i hi => ?_) fun i hi j hj hij => ?_).trans (List.toFinset_card_le pins)
    · exact List.mem_toFinset.mpr (Finset.mem_filter.mp hi).2.2
    · have hi := (Finset.mem_filter.mp hi).2
      have hj := (Finset.mem_filter.mp hj).2
      exact h.unique i j _ ⟨hi.1, rfl⟩ ⟨hj.1, hij.symm⟩
  have hcard := (Finset.card_le_card hused).trans (Finset.card_union_le _ _)
  rw [Finset.card_univ, Fintype.card_fin] at hcard
  omega

theorem Coherent.bget_isSome_of_mem (h : Coherent s pins) (p : Nat) (hb : b ∈ pins) :
    (Bio.bget s p rootdev b).isSome := by
  obtain ⟨i, hi, -⟩ := h.pinned b hb
  rw [Option.isSome_iff_ne_none]
  exact fun hnone => ((bget_eq_none_iff h.mem_lru).mp hnone i).1 hi

end
end LiberalOS.Kernel.Bio
