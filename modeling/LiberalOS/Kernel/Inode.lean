import Mathlib.Logic.Function.Basic
import LiberalOS.Foundation.FixedCodec

/-!
# An inode and its blocks

`balloc`, `bmap`, `readi`, `writei` and `itrunc` of `kernel/fs.c` for one inode, on the bytes of
the blocks. The inode is there twice, in memory and on the disk. A panic is `none`.

A file owns the blocks its inode lists and those listed in the indirect block. `File.Wf` says that
they are in use, that no block is listed twice, and that every block below the size is there.
Blocks beyond the size may be there as well: a short write leaves them.

## Main results

* `bmap_spec` — `bmap` finds the block of a place or puts a fresh one there.
-/
namespace LiberalOS.Kernel.Fs
open Foundation

@[simp] abbrev bsize : Nat := 1024
@[simp] abbrev ndirect : Nat := 12
@[simp] abbrev nindirect : Nat := 256
@[simp] abbrev maxfile : Nat := ndirect + nindirect

/-! ## Blocks -/

/-- `sb.size`, the free bitmap, and the bytes of the blocks. -/
structure Disk where
  size : Nat
  size_lt : size < 4294967296
  used : Nat → Bool
  data : Nat → Nat → UInt8

def Disk.write (d : Disk) (b : Nat) (bytes : Nat → UInt8) : Disk :=
  { d with data := Function.update d.data b bytes }

/-- A block is marked in the bitmap and zeroed. -/
def Disk.claim (d : Disk) (b : Nat) : Disk :=
  { d with used := Function.update d.used b true }.write b fun _ => 0

/-- The first free block; 0 when there is none. -/
def balloc (d : Disk) : Nat × Disk :=
  match (List.range d.size).find? fun b => !d.used b with
  | some b => (b, d.claim b)
  | none => (0, d)

/-- Freeing a free block is a panic. -/
def bfree (d : Disk) (b : Nat) : Option Disk :=
  if d.used b then some { d with used := Function.update d.used b false } else none

/-- `a[j]` of an indirect block. -/
def word (bytes : Nat → UInt8) (j : Nat) : Nat :=
  leNat ((List.range 4).map fun i => bytes (4 * j + i))

def setWord (bytes : Nat → UInt8) (j v : Nat) : Nat → UInt8 := fun i =>
  if i / 4 = j then (leBytes 4 v).getD (i % 4) 0 else bytes i

/-! ## Files -/

/-- `size` and `addrs[0]` to `addrs[NDIRECT]` of an inode. -/
structure Inode where
  size : Nat
  addrs : Nat → Nat

structure File where
  disk : Disk
  ip : Inode
  dip : Inode

/-- `iupdate`: the inode in memory is copied to the disk. -/
def iupdate (f : File) : File := { f with dip := f.ip }

/-- `ilock`: an inode that is not valid in memory is read from the disk. -/
def ilock (valid : Bool) (f : File) : File := if valid then f else { f with ip := f.dip }

/-- The block in `addrs[i]`, allocated if there is none; 0 when out of blocks. -/
def fillAddr (f : File) (i : Nat) : Nat × File :=
  if f.ip.addrs i = 0 then
    let r := balloc f.disk
    if r.1 = 0 then (0, { f with disk := r.2 })
    else
      (r.1, { f with disk := r.2, ip := { f.ip with addrs := Function.update f.ip.addrs i r.1 } })
  else (f.ip.addrs i, f)

/-- The block in `a[j]` of the indirect block, allocated if there is none. -/
def fillWord (f : File) (indirect j : Nat) : Nat × File :=
  let addr := word (f.disk.data indirect) j
  if addr = 0 then
    let r := balloc f.disk
    if r.1 = 0 then (0, { f with disk := r.2 })
    else
      (r.1, { f with disk := r.2.write indirect (setWord (r.2.data indirect) j r.1) })
  else (addr, f)

def bmap (f : File) (bn : Nat) : Option (Nat × File) :=
  if bn < ndirect then some (fillAddr f bn)
  else if bn - ndirect < nindirect then
    let r := fillAddr f ndirect
    some (if r.1 = 0 then r else fillWord r.2 r.1 (bn - ndirect))
  else none

/-- The copy of `bs` into the buffer of a block and its `log_write`. -/
def File.store (f : File) (addr off : Nat) (bs : List UInt8) : File :=
  { f with disk := f.disk.write addr fun i =>
      if off ≤ i ∧ i < off + bs.length then bs.getD (i - off) 0 else f.disk.data addr i }

/-- The loop of `writei`, up to the first block `bmap` cannot supply. Returns the offset reached. -/
def writeiLoop : Nat → File → Nat → List UInt8 → Option (Nat × File)
  | 0, f, off, _ => some (off, f)
  | fuel + 1, f, off, src =>
    if src = [] then some (off, f)
    else
      match bmap f (off / bsize) with
      | none => none
      | some (addr, f) =>
        if addr = 0 then some (off, f)
        else
          let m := min src.length (bsize - off % bsize)
          writeiLoop fuel (f.store addr (off % bsize) (src.take m)) (off + m) (src.drop m)

/-- The assignment `ip->size = n`. -/
def File.setSize (f : File) (n : Nat) : File := { f with ip := { f.ip with size := n } }

def writei (f : File) (off : Nat) (src : List UInt8) : Option (Int × File) :=
  if f.ip.size < off ∨ (off + src.length) % 4294967296 < off then some (-1, f)
  else if maxfile * bsize < off + src.length then some (-1, f)
  else
    (writeiLoop src.length f off src).map fun (reached, f) =>
      ((reached : Int) - off, iupdate (if f.ip.size < reached then f.setSize reached else f))

/-- The loop of `readi`: the bytes read. -/
def readiLoop : Nat → File → Nat → Nat → Option (List UInt8 × File)
  | 0, f, _, _ => some ([], f)
  | fuel + 1, f, off, n =>
    if n = 0 then some ([], f)
    else
      match bmap f (off / bsize) with
      | none => none
      | some (addr, f) =>
        if addr = 0 then some ([], f)
        else
          let m := min n (bsize - off % bsize)
          (readiLoop fuel f (off + m) (n - m)).map fun (bs, g) =>
            ((List.range m).map (fun i => f.disk.data addr (off % bsize + i)) ++ bs, g)

def readi (f : File) (off n : Nat) : Option (List UInt8 × File) :=
  if f.ip.size < off ∨ (off + n) % 4294967296 < off then some ([], f)
  else
    let n := if f.ip.size < off + n then f.ip.size - off else n
    readiLoop n f off n

/-- Free the blocks that are there. -/
def freeAll : List Nat → Disk → Option Disk
  | [], d => some d
  | b :: bs, d => if b = 0 then freeAll bs d else (bfree d b).bind (freeAll bs)

def itrunc (f : File) : Option File :=
  (freeAll ((List.range ndirect).map f.ip.addrs) f.disk).bind fun d =>
    let indirect := f.ip.addrs ndirect
    let freed :=
      if indirect = 0 then some d
      else
        (freeAll ((List.range nindirect).map (word (d.data indirect))) d).bind fun d =>
          bfree d indirect
    freed.map fun d => iupdate { f with disk := d, ip := ⟨0, fun _ => 0⟩ }

/-! ## Blocks and words -/

@[simp] theorem Disk.write_used (d : Disk) (b : Nat) (bytes : Nat → UInt8) :
    (d.write b bytes).used = d.used := rfl

@[simp] theorem Disk.write_data_self (d : Disk) (b : Nat) (bytes : Nat → UInt8) :
    (d.write b bytes).data b = bytes := Function.update_self ..

theorem Disk.write_data_of_ne (d : Disk) {b c : Nat} (h : c ≠ b) (bytes : Nat → UInt8) :
    (d.write b bytes).data c = d.data c := Function.update_of_ne h ..

@[simp] theorem Disk.claim_used (d : Disk) (b : Nat) :
    (d.claim b).used = Function.update d.used b true := rfl

@[simp] theorem Disk.claim_data_self (d : Disk) (b : Nat) : (d.claim b).data b = fun _ => 0 :=
  Function.update_self ..

theorem Disk.claim_data_of_ne (d : Disk) {b c : Nat} (h : c ≠ b) :
    (d.claim b).data c = d.data c := Function.update_of_ne h ..

/-- `balloc` finds nothing, or gives out a block that was free. -/
theorem balloc_cases {d : Disk} (hboot : d.used 0 = true) :
    balloc d = (0, d) ∨ ∃ b, b ≠ 0 ∧ b < 4294967296 ∧ d.used b = false ∧
      balloc d = (b, d.claim b) := by
  unfold balloc
  cases hfind : (List.range d.size).find? fun b => !d.used b with
  | none => exact Or.inl rfl
  | some b =>
    have hfree : d.used b = false := by simpa using List.find?_some hfind
    have hlt : b < d.size := List.mem_range.mp (List.mem_of_find?_eq_some hfind)
    have hne : b ≠ 0 := by grind
    exact Or.inr ⟨b, hne, hlt.trans d.size_lt, hfree, rfl⟩

theorem word_congr {bytes bytes' : Nat → UInt8} {j : Nat}
    (h : ∀ i < 4, bytes (4 * j + i) = bytes' (4 * j + i)) : word bytes j = word bytes' j := by
  unfold word
  congr 1
  exact List.map_congr_left fun i hi => h i (List.mem_range.mp hi)

theorem word_zero (j : Nat) : word (fun _ => 0) j = 0 := by
  simp [word, leNat, List.range_succ]

theorem word_setWord_self (bytes : Nat → UInt8) (j : Nat) {v : Nat} (hv : v < 4294967296) :
    word (setWord bytes j v) j = v := by
  have hbytes : (List.range 4).map (fun i => setWord bytes j v (4 * j + i)) = leBytes 4 v := by
    apply List.ext_getElem (by simp)
    intro i hi _
    have hi : i < 4 := by simpa using hi
    have hdiv : (4 * j + i) / 4 = j := by omega
    have hmod : (4 * j + i) % 4 = i := by omega
    simp only [List.getElem_map, List.getElem_range, setWord, hdiv, hmod, if_true]
    rw [List.getD_eq_getElem?_getD, List.getElem?_eq_getElem (by simpa using hi), Option.getD_some]
  rw [word, hbytes, leNat_leBytes]
  exact Nat.mod_eq_of_lt (by simpa using hv)

theorem word_setWord_of_ne (bytes : Nat → UInt8) {j k : Nat} (h : k ≠ j) (v : Nat) :
    word (setWord bytes j v) k = word bytes k := by
  refine word_congr fun i hi => ?_
  have hdiv : (4 * k + i) / 4 ≠ j := by omega
  simp [setWord, hdiv]

/-! ## The blocks of a file -/

/-- The blocks a file owns by place: `addrs[k]` up to `NDIRECT`, then the words of the indirect
block. -/
def File.block (f : File) (k : Nat) : Nat :=
  if k ≤ ndirect then f.ip.addrs k
  else if f.ip.addrs ndirect = 0 then 0
  else word (f.disk.data (f.ip.addrs ndirect)) (k - (ndirect + 1))

/-- The place of a block of the content. -/
def place (bn : Nat) : Nat := if bn < ndirect then bn else bn + 1

theorem place_ne (bn : Nat) : place bn ≠ ndirect := by
  unfold place
  grind

theorem place_le {bn : Nat} (h : bn < maxfile) : place bn ≤ maxfile := by
  unfold place
  grind

theorem place_injective {bn bn' : Nat} (h : place bn = place bn') : bn = bn' := by
  unfold place at h
  grind

structure File.Wf (f : File) : Prop where
  boot : f.disk.used 0 = true
  used : ∀ k ≤ maxfile, f.block k ≠ 0 → f.disk.used (f.block k) = true
  distinct : ∀ j ≤ maxfile, ∀ k ≤ maxfile, f.block j = f.block k → f.block j ≠ 0 → j = k
  size_le : f.ip.size ≤ maxfile * bsize
  mapped : ∀ bn, bn * bsize < f.ip.size → f.block (place bn) ≠ 0

/-- Places of `f` are filled in `g`, and the bytes of the blocks `f` has are kept. The indirect
block is no block of the content. -/
structure File.Extends (f g : File) : Prop where
  wf : g.Wf
  size : g.ip.size = f.ip.size
  dip : g.dip = f.dip
  block : ∀ k ≤ maxfile, f.block k ≠ 0 → g.block k = f.block k
  data : ∀ k ≤ maxfile, k ≠ ndirect → f.block k ≠ 0 →
    g.disk.data (f.block k) = f.disk.data (f.block k)

theorem File.Extends.refl {f : File} (hf : f.Wf) : f.Extends f :=
  ⟨hf, rfl, rfl, fun _ _ _ => rfl, fun _ _ _ _ => rfl⟩

theorem File.Extends.trans {f g h : File} (hfg : f.Extends g) (hgh : g.Extends h) :
    f.Extends h where
  wf := hgh.wf
  size := hgh.size.trans hfg.size
  dip := hgh.dip.trans hfg.dip
  block k hk hne := by
    have hg := hfg.block k hk hne
    rw [hgh.block k hk (hg ▸ hne), hg]
  data k hk hind hne := by
    have hg := hfg.block k hk hne
    have hdata := hgh.data k hk hind (hg ▸ hne)
    rw [hg] at hdata
    rw [hdata, hfg.data k hk hind hne]

/-- A block that is free is not one of the file. -/
theorem File.Wf.block_ne {f : File} (hf : f.Wf) {k b : Nat} (hk : k ≤ maxfile)
    (hne : f.block k ≠ 0) (hfree : f.disk.used b = false) : f.block k ≠ b := by
  have hused := hf.used k hk hne
  grind

/-- A fresh block at one empty place. -/
theorem File.Wf.fill {f g : File} (hf : f.Wf) (k₀ b : Nat)
    (hempty : f.block k₀ = 0) (hb : b ≠ 0) (hfree : f.disk.used b = false)
    (hused : g.disk.used = Function.update f.disk.used b true) (hself : g.block k₀ = b)
    (hblock : ∀ k ≤ maxfile, k ≠ k₀ → g.block k = f.block k)
    (hdata : ∀ k ≤ maxfile, k ≠ ndirect → f.block k ≠ 0 →
      g.disk.data (f.block k) = f.disk.data (f.block k))
    (hsize : g.ip.size = f.ip.size) (hdip : g.dip = f.dip) : f.Extends g := by
  have hold : ∀ k ≤ maxfile, f.block k ≠ 0 → f.block k ≠ b :=
    fun k hk hne => hf.block_ne hk hne hfree
  have hkeep : ∀ k ≤ maxfile, f.block k ≠ 0 → g.block k = f.block k := by
    intro k hk hne
    exact hblock k hk fun h => hne (h ▸ hempty)
  have hcases : ∀ k ≤ maxfile, g.block k ≠ 0 →
      (k = k₀ ∧ g.block k = b) ∨ (k ≠ k₀ ∧ g.block k = f.block k ∧ f.block k ≠ 0) := by
    intro k hk hne
    by_cases h : k = k₀
    · exact Or.inl ⟨h, h ▸ hself⟩
    · have hg := hblock k hk h
      grind
  refine ⟨⟨?_, ?_, ?_, hsize ▸ hf.size_le, ?_⟩, hsize, hdip, hkeep, hdata⟩
  · rw [hused, Function.update_of_ne hb.symm]
    exact hf.boot
  · intro k hk hne
    rcases hcases k hk hne with ⟨-, hg⟩ | ⟨-, hg, hfk⟩
    · rw [hused, hg, Function.update_self]
    · rw [hused, hg, Function.update_of_ne (hold k hk hfk)]
      exact hf.used k hk hfk
  · intro j hj k hk heq hne
    rcases hcases j hj hne with ⟨rfl, hgj⟩ | ⟨-, hgj, hfj⟩ <;>
      rcases hcases k hk (heq ▸ hne) with ⟨rfl, hgk⟩ | ⟨-, hgk, hfk⟩
    · rfl
    · exact absurd (hgk.symm.trans (heq.symm.trans hgj)) (hold k hk hfk)
    · exact absurd (hgj.symm.trans (heq.trans hgk)) (hold j hj hfj)
    · exact hf.distinct j hj k hk (hgj.symm.trans (heq.trans hgk)) hfj
  · intro bn hbn
    rw [hsize] at hbn
    have hlt : bn < maxfile := by
      have := hf.size_le
      simp at this hbn ⊢
      omega
    have hne := hf.mapped bn hbn
    rwa [hkeep _ (place_le hlt) hne]

/-! ## `bmap` -/

theorem File.block_of_le {f : File} {k : Nat} (h : k ≤ ndirect) : f.block k = f.ip.addrs k :=
  if_pos h

theorem File.block_of_lt {f : File} {k : Nat} (h : ndirect < k) (hind : f.ip.addrs ndirect ≠ 0) :
    f.block k = word (f.disk.data (f.ip.addrs ndirect)) (k - (ndirect + 1)) := by
  rw [File.block, if_neg (by omega), if_neg hind]

theorem File.block_eq_zero {f : File} {k : Nat} (h : ndirect < k) (hind : f.ip.addrs ndirect = 0) :
    f.block k = 0 := by
  rw [File.block, if_neg (by omega), if_pos hind]

/-- The indirect block of a file is in use. -/
theorem File.Wf.indirect_ne {f : File} (hf : f.Wf) {b : Nat} (hind : f.ip.addrs ndirect ≠ 0)
    (hfree : f.disk.used b = false) : f.ip.addrs ndirect ≠ b := by
  have hblock : f.block ndirect = f.ip.addrs ndirect := File.block_of_le (Nat.le_refl _)
  rw [← hblock] at hind ⊢
  exact hf.block_ne (by simp) hind hfree

/-- The address found at a place, or filled in there. -/
theorem fillAddr_spec {f : File} (hf : f.Wf) {i : Nat} (hi : i ≤ ndirect) :
    f.Extends (fillAddr f i).2 ∧ (fillAddr f i).1 = (fillAddr f i).2.ip.addrs i := by
  unfold fillAddr
  by_cases hempty : f.ip.addrs i = 0
  · rw [if_pos hempty]
    rcases balloc_cases hf.boot with heq | ⟨b, hb, -, hfree, heq⟩
    · simp only [heq, if_true]
      exact ⟨.refl hf, hempty.symm⟩
    simp only [heq, if_neg hb, Function.update_self, and_true]
    have hkeep : ∀ {k}, k ≠ i → Function.update f.ip.addrs i b k = f.ip.addrs k :=
      fun h => Function.update_of_ne h ..
    refine hf.fill i b ?_ hb hfree rfl ?_ ?_ ?_ rfl rfl
    · rwa [File.block_of_le hi]
    · rw [File.block_of_le hi]
      exact Function.update_self ..
    · intro k hk hne
      by_cases hdirect : k ≤ ndirect
      · rw [File.block_of_le hdirect, File.block_of_le hdirect]
        exact hkeep hne
      have hlt : ndirect < k := by omega
      by_cases hind : i = ndirect
      · -- a new indirect block lists nothing
        subst hind
        rw [File.block_eq_zero hlt hempty, File.block_of_lt hlt (by simpa using hb)]
        simp [word_zero]
      · have hsame := hkeep (Ne.symm hind)
        by_cases hzero : f.ip.addrs ndirect = 0
        · rw [File.block_eq_zero hlt hzero, File.block_eq_zero hlt (hsame.trans hzero)]
        · rw [File.block_of_lt hlt hzero, File.block_of_lt hlt (hsame.trans_ne hzero)]
          simp only [hsame]
          rw [Disk.claim_data_of_ne _ (hf.indirect_ne hzero hfree)]
    · intro k hk _ hne
      exact Disk.claim_data_of_ne _ (hf.block_ne hk hne hfree)
  · rw [if_neg hempty]
    exact ⟨.refl hf, rfl⟩

/-- The address found in a word of the indirect block, or filled in there. -/
theorem fillWord_spec {f : File} (hf : f.Wf) (hind : f.ip.addrs ndirect ≠ 0) (j : Nat) :
    f.Extends (fillWord f (f.ip.addrs ndirect) j).2 ∧
      (fillWord f (f.ip.addrs ndirect) j).1 =
        (fillWord f (f.ip.addrs ndirect) j).2.block (ndirect + 1 + j) := by
  have hlt : ndirect < ndirect + 1 + j := by omega
  have hj' : ndirect + 1 + j - (ndirect + 1) = j := by omega
  have hblock : f.block (ndirect + 1 + j) = word (f.disk.data (f.ip.addrs ndirect)) j := by
    rw [File.block_of_lt hlt hind, hj']
  unfold fillWord
  by_cases hempty : word (f.disk.data (f.ip.addrs ndirect)) j = 0
  · simp only [if_pos hempty]
    rcases balloc_cases hf.boot with heq | ⟨b, hb, hb32, hfree, heq⟩
    · simp only [heq, if_true]
      exact ⟨.refl hf, (hblock.trans hempty).symm⟩
    simp only [heq, if_neg hb]
    have hne := hf.indirect_ne hind hfree
    let disk := (f.disk.claim b).write (f.ip.addrs ndirect)
      (setWord ((f.disk.claim b).data (f.ip.addrs ndirect)) j b)
    let g : File := { f with disk := disk }
    have hword : ∀ k, ndirect < k →
        g.block k = if k = ndirect + 1 + j then b else f.block k := by
      intro k hk
      rw [File.block_of_lt (f := g) hk hind, File.block_of_lt hk hind]
      simp only [g, disk]
      rw [Disk.write_data_self, Disk.claim_data_of_ne _ hne]
      split
      · next h => rw [h, hj', word_setWord_self _ _ hb32]
      · next h => rw [word_setWord_of_ne _ (by omega)]
    have hself : g.block (ndirect + 1 + j) = b := (hword _ hlt).trans (if_pos rfl)
    refine ⟨hf.fill (ndirect + 1 + j) b (hblock.trans hempty) hb hfree rfl hself ?_ ?_ rfl rfl,
      hself.symm⟩
    · intro k hk hkj
      by_cases hdirect : k ≤ ndirect
      · rw [File.block_of_le hdirect, File.block_of_le hdirect]
      · exact (hword k (by omega)).trans (if_neg hkj)
    · intro k hk hkind hkne
      have hother : f.block k ≠ f.ip.addrs ndirect := by
        intro h
        rw [← File.block_of_le (Nat.le_refl ndirect)] at h
        exact hkind (hf.distinct k hk ndirect (by simp) h hkne)
      exact (Disk.write_data_of_ne _ hother _).trans
        (Disk.claim_data_of_ne _ (hf.block_ne hk hkne hfree))
  · simp only [if_neg hempty]
    exact ⟨.refl hf, hblock.symm⟩

/-- `bmap` finds or fills the place of a block; the address is 0 if the place stays empty. -/
theorem bmap_spec {f : File} (hf : f.Wf) {bn : Nat} (hbn : bn < maxfile) :
    ∃ g, bmap f bn = some (g.block (place bn), g) ∧ f.Extends g := by
  unfold bmap
  by_cases hdirect : bn < ndirect
  · obtain ⟨hext, haddr⟩ := fillAddr_spec hf (Nat.le_of_lt hdirect)
    refine ⟨(fillAddr f bn).2, ?_, hext⟩
    rw [if_pos hdirect, place, if_pos hdirect, File.block_of_le (Nat.le_of_lt hdirect), ← haddr]
  · obtain ⟨hext, haddr⟩ := fillAddr_spec hf (Nat.le_refl ndirect)
    have hj : bn - ndirect < nindirect := Nat.sub_lt_left_of_lt_add (Nat.le_of_not_lt hdirect) hbn
    have hplace : place bn = ndirect + 1 + (bn - ndirect) := by
      rw [place, if_neg hdirect]
      omega
    rw [if_neg hdirect, if_pos hj, hplace]
    simp only
    by_cases hzero : (fillAddr f ndirect).1 = 0
    · refine ⟨(fillAddr f ndirect).2, ?_, hext⟩
      rw [if_pos hzero, File.block_eq_zero (by omega) (haddr ▸ hzero), ← hzero]
    · obtain ⟨hext', haddr'⟩ := fillWord_spec hext.wf (haddr ▸ hzero) (bn - ndirect)
      rw [if_neg hzero, haddr]
      exact ⟨_, by rw [← haddr'], hext.trans hext'⟩

/-- A block that is there is found and nothing changes. -/
theorem bmap_of_mapped {f : File} {bn : Nat} (hbn : bn < maxfile) (hne : f.block (place bn) ≠ 0) :
    bmap f bn = some (f.block (place bn), f) := by
  unfold bmap
  by_cases hdirect : bn < ndirect
  · have hplace : place bn = bn := if_pos hdirect
    rw [hplace, File.block_of_le (Nat.le_of_lt hdirect)] at hne ⊢
    rw [if_pos hdirect, fillAddr, if_neg hne]
  · have hplace : place bn = bn + 1 := if_neg hdirect
    have hind : f.ip.addrs ndirect ≠ 0 := by
      intro h
      rw [hplace, File.block_eq_zero (by omega) h] at hne
      exact hne rfl
    have hj : bn - ndirect < nindirect := Nat.sub_lt_left_of_lt_add (Nat.le_of_not_lt hdirect) hbn
    have hword : f.block (bn + 1) = word (f.disk.data (f.ip.addrs ndirect)) (bn - ndirect) := by
      rw [File.block_of_lt (by omega) hind, Nat.add_sub_add_right]
    rw [hplace, hword] at hne ⊢
    simp only [if_neg hdirect, if_pos hj, fillAddr, if_neg hind, fillWord, if_neg hne]

end LiberalOS.Kernel.Fs
