import LiberalOS.Kernel.Inode

/-!
# The content of a file

What `writei`, `readi` and `itrunc` do to the bytes a file reads as. A write that runs out of
blocks has stored a front part of its source and leaves the blocks it got, so the size alone decides
how much of it is read.

## Main results

* `writei_spec` — a write is refused, or stores a front part of its source.
* `File.Wrote.content_old`, `File.Wrote.content_new` — what the file reads as, by its size.
* `readi_eq` — a read below the size returns the bytes of the content.
* `itrunc_spec` — truncation frees no block twice.
-/
namespace LiberalOS.Kernel.Fs
open Foundation

/-! ## Bytes -/

/-- The byte at an offset of the content. -/
def File.byte (f : File) (i : Nat) : UInt8 :=
  f.disk.data (f.block (place (i / bsize))) (i % bsize)

/-- The block of an offset is there. -/
def File.Mapped (f : File) (i : Nat) : Prop := f.block (place (i / bsize)) ≠ 0

/-- What the file reads as. -/
def File.content (f : File) : List UInt8 := (List.range f.ip.size).map f.byte

@[simp] theorem File.length_content (f : File) : f.content.length = f.ip.size := by
  simp [File.content]

theorem div_lt_maxfile {i : Nat} (h : i < maxfile * bsize) : i / bsize < maxfile :=
  Nat.div_lt_of_lt_mul (Nat.mul_comm maxfile bsize ▸ h)

theorem File.Wf.mapped_of_lt {f : File} (hf : f.Wf) {i : Nat} (h : i < f.ip.size) : f.Mapped i :=
  hf.mapped _ ((Nat.div_mul_le_self i bsize).trans_lt h)

/-- `g` is `f` with `bs` written at `off`. -/
structure File.Wrote (f : File) (off : Nat) (bs : List UInt8) (g : File) : Prop where
  wf : g.Wf
  size : g.ip.size = f.ip.size
  dip : g.dip = f.dip
  mapped : ∀ i < maxfile * bsize, f.Mapped i → g.Mapped i
  other : ∀ i < maxfile * bsize, f.Mapped i → i < off ∨ off + bs.length ≤ i → g.byte i = f.byte i
  wrote : ∀ j b, bs[j]? = some b → g.Mapped (off + j) ∧ g.byte (off + j) = b

theorem File.Extends.wrote {f g : File} (h : f.Extends g) (off : Nat) : f.Wrote off [] g where
  wf := h.wf
  size := h.size
  dip := h.dip
  mapped i hi hm := by
    rw [File.Mapped, h.block _ (place_le (div_lt_maxfile hi)) hm]
    exact hm
  other i hi hm _ := by
    have hk := place_le (div_lt_maxfile hi)
    rw [File.byte, File.byte, h.block _ hk hm, h.data _ hk (place_ne _) hm]
  wrote := by simp

theorem File.Wrote.trans {f g h : File} {off : Nat} {bs cs : List UInt8}
    (hbs : off + bs.length ≤ maxfile * bsize) (hfg : f.Wrote off bs g)
    (hgh : g.Wrote (off + bs.length) cs h) : f.Wrote off (bs ++ cs) h where
  wf := hgh.wf
  size := hgh.size.trans hfg.size
  dip := hgh.dip.trans hfg.dip
  mapped i hi hm := hgh.mapped i hi (hfg.mapped i hi hm)
  other i hi hm hout := by
    rw [List.length_append] at hout
    rw [hgh.other i hi (hfg.mapped i hi hm) (by omega), hfg.other i hi hm (by omega)]
  wrote j b hj := by
    by_cases hlt : j < bs.length
    · rw [List.getElem?_append_left hlt] at hj
      obtain ⟨hm, hb⟩ := hfg.wrote j b hj
      have hi : off + j < maxfile * bsize := by omega
      exact ⟨hgh.mapped _ hi hm, (hgh.other _ hi hm (by omega)).trans hb⟩
    · rw [List.getElem?_append_right (by omega)] at hj
      have hsum : off + bs.length + (j - bs.length) = off + j := by omega
      have := hgh.wrote (j - bs.length) b hj
      rwa [hsum] at this

theorem File.Extends.trans_wrote {f g h : File} {off : Nat} {bs : List UInt8}
    (hoff : off ≤ maxfile * bsize) (hfg : f.Extends g) (hgh : g.Wrote off bs h) :
    f.Wrote off bs h :=
  (hfg.wrote off).trans hoff hgh

/-- A file whose blocks are those of another. -/
theorem File.Wf.of_block {f g : File} (hf : f.Wf) (hboot : g.disk.used 0 = true)
    (hblock : ∀ k ≤ maxfile, g.block k = f.block k)
    (hused : ∀ k ≤ maxfile, f.block k ≠ 0 → g.disk.used (f.block k) = true)
    (hsize : g.ip.size ≤ maxfile * bsize)
    (hmapped : ∀ bn, bn * bsize < g.ip.size → g.block (place bn) ≠ 0) : g.Wf where
  boot := hboot
  used k hk hne := by
    rw [hblock k hk] at hne ⊢
    exact hused k hk hne
  distinct j hj k hk heq hne := by
    rw [hblock j hj] at heq hne
    rw [hblock k hk] at heq
    exact hf.distinct j hj k hk heq hne
  size_le := hsize
  mapped := hmapped

/-- What happens to other blocks is not seen in the file. -/
theorem File.Wf.frame {f g : File} (hf : f.Wf) (hip : g.ip = f.ip) (hboot : g.disk.used 0 = true)
    (hused : ∀ k ≤ maxfile, f.block k ≠ 0 → g.disk.used (f.block k) = true)
    (hdata : ∀ k ≤ maxfile, f.block k ≠ 0 →
      g.disk.data (f.block k) = f.disk.data (f.block k)) :
    g.Wf ∧ g.content = f.content := by
  have hblock : ∀ k, g.block k = f.block k := by
    intro k
    by_cases hdirect : k ≤ ndirect
    · rw [File.block_of_le hdirect, File.block_of_le hdirect, hip]
    have hlt : ndirect < k := by omega
    by_cases hzero : f.ip.addrs ndirect = 0
    · rw [File.block_eq_zero hlt hzero, File.block_eq_zero hlt (by rwa [hip])]
    · have hind := hdata ndirect (by simp)
      rw [File.block_of_le (Nat.le_refl _)] at hind
      rw [File.block_of_lt hlt hzero, File.block_of_lt hlt (by rwa [hip]), hip, hind hzero]
  refine ⟨hf.of_block hboot (fun k _ => hblock k) hused (hip ▸ hf.size_le) fun bn hbn => ?_, ?_⟩
  · rw [hblock]
    exact hf.mapped bn (hip ▸ hbn)
  · rw [File.content, File.content, hip]
    refine List.map_congr_left fun i hi => ?_
    have hlt : i < f.ip.size := List.mem_range.mp hi
    have hk := place_le (div_lt_maxfile (hlt.trans_le hf.size_le))
    rw [File.byte, File.byte, hblock, hdata _ hk (hf.mapped_of_lt hlt)]

/-! ## Writing -/

/-- A store into a block of the content does not touch the indirect block. -/
theorem File.Wf.block_store {f : File} (hf : f.Wf) {bn : Nat} (hbn : bn < maxfile)
    (hne : f.block (place bn) ≠ 0) (off : Nat) (bs : List UInt8) (k : Nat) :
    (f.store (f.block (place bn)) off bs).block k = f.block k := by
  by_cases hdirect : k ≤ ndirect
  · rw [File.block_of_le hdirect, File.block_of_le hdirect]
    rfl
  have hlt : ndirect < k := by omega
  by_cases hzero : f.ip.addrs ndirect = 0
  · rw [File.block_eq_zero hlt hzero, File.block_eq_zero hlt (by exact hzero)]
  have hother : f.ip.addrs ndirect ≠ f.block (place bn) := by
    rw [← File.block_of_le (Nat.le_refl ndirect)]
    intro h
    exact place_ne bn (hf.distinct _ (place_le hbn) _ (by simp) h.symm hne)
  rw [File.block_of_lt hlt hzero, File.block_of_lt hlt (by exact hzero)]
  exact congrArg (word · _) (Disk.write_data_of_ne _ hother _)

theorem add_div_bsize {off j n : Nat} (h : off % bsize + n ≤ bsize) (hj : j < n) :
    (off + j) / bsize = off / bsize := by
  simp only [bsize] at h ⊢
  omega

/-- The bytes of the content after a store into one block. -/
theorem File.Wf.byte_store {f : File} (hf : f.Wf) {off : Nat} {bs : List UInt8}
    (hoff : off < maxfile * bsize) (hm : f.Mapped off) (hfit : off % bsize + bs.length ≤ bsize)
    {i : Nat} (hi : i < maxfile * bsize) (him : f.Mapped i) :
    (f.store (f.block (place (off / bsize))) (off % bsize) bs).byte i =
      if off ≤ i ∧ i < off + bs.length then bs.getD (i - off) 0 else f.byte i := by
  have hbn := div_lt_maxfile hoff
  rw [File.byte, hf.block_store hbn hm]
  by_cases hsame : i / bsize = off / bsize
  · -- in one block offsets compare like the positions in it
    have hi := Nat.div_add_mod i bsize
    have hoff := Nat.div_add_mod off bsize
    rw [hsame] at hi
    have hpos : (off % bsize ≤ i % bsize ∧ i % bsize < off % bsize + bs.length) ↔
        (off ≤ i ∧ i < off + bs.length) := by
      omega
    have hdiff : i % bsize - off % bsize = i - off := by omega
    rw [hsame, File.store, Disk.write_data_self, File.byte, hsame]
    simp only [hpos, hdiff]
  · have hout : ¬ (off ≤ i ∧ i < off + bs.length) := by
      rintro ⟨hle, hlt⟩
      have hj := add_div_bsize hfit (show i - off < bs.length by omega)
      rw [Nat.add_sub_cancel' hle] at hj
      exact hsame hj
    have hne : f.block (place (i / bsize)) ≠ f.block (place (off / bsize)) := by
      intro h
      have := hf.distinct _ (place_le (div_lt_maxfile hi)) _ (place_le hbn) h him
      exact hsame (place_injective this)
    rw [if_neg hout, File.store, Disk.write_data_of_ne _ hne]
    rfl

/-- Storing the part of the source that goes into one block. -/
theorem File.Wf.wrote_store {f : File} (hf : f.Wf) (off : Nat) (bs : List UInt8)
    (hoff : off < maxfile * bsize) (hm : f.Mapped off) (hfit : off % bsize + bs.length ≤ bsize) :
    f.Wrote off bs (f.store (f.block (place (off / bsize))) (off % bsize) bs) := by
  have hbn := div_lt_maxfile hoff
  have hblock := hf.block_store hbn hm (off % bsize) bs
  refine ⟨?_, rfl, rfl, ?_, ?_, ?_⟩
  · refine hf.of_block hf.boot (fun k _ => hblock k) hf.used hf.size_le fun bn h => ?_
    rw [hblock]
    exact hf.mapped bn h
  · intro i _ him
    rw [File.Mapped, hblock]
    exact him
  · intro i hi him hout
    rw [hf.byte_store hoff hm hfit hi him, if_neg (by omega)]
  · intro j b hj
    have hlt : j < bs.length := (List.getElem?_eq_some_iff.mp hj).1
    have hsame := add_div_bsize hfit hlt
    have hmj : f.Mapped (off + j) := by
      rw [File.Mapped, hsame]
      exact hm
    have hi : off + j < maxfile * bsize :=
      (Nat.div_lt_iff_lt_mul (by decide)).mp (hsame.trans_lt hbn)
    refine ⟨by rwa [File.Mapped, hblock], ?_⟩
    rw [hf.byte_store hoff hm hfit hi hmj, if_pos (by omega), Nat.add_sub_cancel_left,
      List.getD_eq_getElem?_getD, hj, Option.getD_some]

/-- The loop writes a front part of the source, and all of it unless it runs out of blocks. -/
theorem writeiLoop_spec {fuel : Nat} {f : File} (hf : f.Wf) (off : Nat) (src : List UInt8)
    (hfuel : src.length ≤ fuel) (hoff : off + src.length ≤ maxfile * bsize) :
    ∃ k ≤ src.length, ∃ g, writeiLoop fuel f off src = some (off + k, g) ∧
      f.Wrote off (src.take k) g ∧ (k < src.length → ¬ g.Mapped (off + k)) := by
  induction fuel generalizing f off src with
  | zero =>
    obtain rfl : src = [] := List.length_eq_zero_iff.mp (by omega)
    exact ⟨0, by simp, f, rfl, (File.Extends.refl hf).wrote off, by simp⟩
  | succ fuel ih =>
    by_cases hsrc : src = []
    · subst hsrc
      exact ⟨0, by simp, f, by simp [writeiLoop], (File.Extends.refl hf).wrote off, by simp⟩
    have hpos : 0 < src.length := List.length_pos_iff.mpr hsrc
    have hlt : off < maxfile * bsize := by omega
    obtain ⟨g, hbmap, hext⟩ := bmap_spec hf (div_lt_maxfile hlt)
    rw [writeiLoop, if_neg hsrc, hbmap]
    by_cases hzero : g.block (place (off / bsize)) = 0
    · refine ⟨0, by omega, g, by simp [hzero], hext.wrote off, fun _ hm => ?_⟩
      exact hm hzero
    let m := min src.length (bsize - off % bsize)
    have hm : m ≤ src.length := Nat.min_le_left _ _
    have hmod : off % bsize < bsize := Nat.mod_lt _ (by decide)
    have hmpos : 0 < m := by omega
    have htake : (src.take m).length = m := by rw [List.length_take, Nat.min_eq_left hm]
    have hstore := hext.wf.wrote_store off (src.take m) hlt hzero (by rw [htake]; omega)
    obtain ⟨k, hk, h, hloop, hwrote, hshort⟩ := ih hstore.wf (off + m) (src.drop m)
      (by rw [List.length_drop]; omega) (by rw [List.length_drop]; omega)
    rw [List.length_drop] at hk hshort
    refine ⟨m + k, by omega, h, ?_, ?_, fun hlt => ?_⟩
    · simp only [if_neg hzero]
      rw [hloop, Nat.add_assoc]
    · have hfirst := hext.trans_wrote hlt.le hstore
      rw [List.take_add]
      exact hfirst.trans (by omega) (by rwa [htake])
    · have := hshort (by omega)
      rwa [Nat.add_assoc] at this

theorem File.setSize_self (f : File) : f.setSize f.ip.size = f := rfl

theorem File.Wf.iupdate {f : File} (hf : f.Wf) : (iupdate f).Wf :=
  ⟨hf.boot, hf.used, hf.distinct, hf.size_le, hf.mapped⟩

/-- A write inside or at the end of the file is refused, or a front part of it is done. -/
theorem writei_spec {f : File} (hf : f.Wf) {off : Nat} (src : List UInt8)
    (hoff : off ≤ f.ip.size) (hlen : off + src.length < 4294967296) :
    (maxfile * bsize < off + src.length ∧ writei f off src = some (-1, f)) ∨
    (off + src.length ≤ maxfile * bsize ∧ ∃ k ≤ src.length, ∃ g,
      writei f off src =
        some ((k : Int), iupdate (g.setSize (max f.ip.size (off + k)))) ∧
      f.Wrote off (src.take k) g ∧ (k < src.length → ¬ g.Mapped (off + k))) := by
  unfold writei
  have hwrap : (off + src.length) % 4294967296 = off + src.length := Nat.mod_eq_of_lt hlen
  rw [if_neg (by omega)]
  by_cases hmax : maxfile * bsize < off + src.length
  · exact Or.inl ⟨hmax, if_pos hmax⟩
  obtain ⟨k, hk, g, hloop, hwrote, hshort⟩ :=
    writeiLoop_spec hf off src (Nat.le_refl _) (by omega)
  refine Or.inr ⟨by omega, k, hk, g, ?_, hwrote, hshort⟩
  rw [if_neg hmax, hloop, Option.map_some]
  have hret : ((off + k : Nat) : Int) - off = k := by omega
  have hsize : (if g.ip.size < off + k then g.setSize (off + k) else g) =
      g.setSize (max f.ip.size (off + k)) := by
    rw [hwrote.size]
    split
    · rw [Nat.max_eq_right (by omega)]
    · rw [Nat.max_eq_left (by omega), ← hwrote.size, File.setSize_self]
  simp only [hret, hsize]

theorem map_range_add {α : Type*} (g : Nat → α) (m n : Nat) :
    (List.range (m + n)).map g = (List.range m).map g ++ (List.range n).map fun i => g (m + i) := by
  rw [List.range_add, List.map_append, List.map_map]
  rfl

section Appending

variable {f g : File} {bs : List UInt8}

/-- After a write a file may have any size up to where the write reached. -/
theorem File.Wrote.wf_setSize (hf : f.Wf) {off : Nat} (hoff : off ≤ f.ip.size)
    (hw : f.Wrote off bs g) {n : Nat} (hn : n ≤ max f.ip.size (off + bs.length))
    (hmax : n ≤ maxfile * bsize) : (g.setSize n).Wf := by
  refine ⟨hw.wf.boot, hw.wf.used, hw.wf.distinct, hmax, fun bn hbn => ?_⟩
  have hlt : bn * bsize < n := hbn
  have hdiv : bn * bsize / bsize = bn := Nat.mul_div_cancel _ (by decide)
  have hm : g.Mapped (bn * bsize) := by
    by_cases hold : bn * bsize < f.ip.size
    · exact hw.mapped _ (by omega) (hf.mapped_of_lt hold)
    · have hj : bn * bsize - off < bs.length := by omega
      have := (hw.wrote _ _ (List.getElem?_eq_getElem hj)).1
      rwa [Nat.add_sub_cancel' (by omega)] at this
  rwa [File.Mapped, hdiv] at hm

/-- With the old size the file reads as before. -/
theorem File.Wrote.content_old (hf : f.Wf) (hw : f.Wrote f.ip.size bs g) :
    (g.setSize f.ip.size).content = f.content := by
  refine List.map_congr_left fun i hi => ?_
  have hlt : i < f.ip.size := List.mem_range.mp hi
  exact hw.other i (hlt.trans_le hf.size_le) (hf.mapped_of_lt hlt) (Or.inl hlt)

/-- With the size the write reached the file reads as the old content and what was written. -/
theorem File.Wrote.content_new (hf : f.Wf) (hw : f.Wrote f.ip.size bs g) :
    (g.setSize (f.ip.size + bs.length)).content = f.content ++ bs := by
  have hnew : (List.range bs.length).map (fun j => g.byte (f.ip.size + j)) = bs := by
    refine List.ext_getElem (by simp) fun j _ hj => ?_
    have := (hw.wrote j _ (List.getElem?_eq_getElem hj)).2
    simpa using this
  calc (g.setSize (f.ip.size + bs.length)).content
      = (List.range (f.ip.size + bs.length)).map g.byte := rfl
    _ = (List.range f.ip.size).map g.byte ++ bs := by rw [map_range_add, hnew]
    _ = f.content ++ bs := by rw [← hw.content_old hf]; rfl

end Appending

/-- Every write keeps the file well-formed, whatever it returns. -/
theorem writei_wf {f : File} (hf : f.Wf) {off : Nat} {src : List UInt8} (hoff : off ≤ f.ip.size)
    (hlen : off + src.length < 4294967296) :
    ∃ ret g, writei f off src = some (ret, g) ∧ g.Wf := by
  rcases writei_spec hf src hoff hlen with ⟨-, heq⟩ | ⟨hmax, k, hk, g, heq, hw, -⟩
  · exact ⟨-1, f, heq, hf⟩
  · have htake : (src.take k).length = k := by rw [List.length_take, Nat.min_eq_left hk]
    have hsize := hf.size_le
    refine ⟨k, _, heq, (hw.wf_setSize hf hoff ?_ ?_).iupdate⟩
    · rw [htake]
    · omega

/-! ## Reading -/

/-- Bytes below the size are read without a change. -/
theorem readiLoop_eq {f : File} (hf : f.Wf) {fuel : Nat} (off n : Nat) (hfuel : n ≤ fuel)
    (hoff : off + n ≤ f.ip.size) :
    readiLoop fuel f off n = some ((List.range n).map fun i => f.byte (off + i), f) := by
  induction fuel generalizing off n with
  | zero =>
    obtain rfl : n = 0 := by omega
    rfl
  | succ fuel ih =>
    by_cases hn : n = 0
    · subst hn
      rfl
    have hlt : off < f.ip.size := by omega
    have hmapped := hf.mapped_of_lt hlt
    have hbmap := bmap_of_mapped (div_lt_maxfile (hlt.trans_le hf.size_le)) hmapped
    let m := min n (bsize - off % bsize)
    have hm : m ≤ n := Nat.min_le_left _ _
    have hmod : off % bsize < bsize := Nat.mod_lt _ (by decide)
    have hmpos : 0 < m := by omega
    have hfit : off % bsize + m ≤ bsize := by omega
    have hfirst : (List.range m).map
        (fun i => f.disk.data (f.block (place (off / bsize))) (off % bsize + i)) =
        (List.range m).map fun i => f.byte (off + i) := by
      refine List.map_congr_left fun i hi => ?_
      have hi : i < m := List.mem_range.mp hi
      have hpos : (off + i) % bsize = off % bsize + i := by
        simp only [bsize] at hfit ⊢
        omega
      rw [File.byte, add_div_bsize hfit hi, hpos]
    have hrest : readiLoop fuel f (off + m) (n - m) = _ :=
      ih (off + m) (n - m) (by omega) (by omega)
    rw [readiLoop, if_neg hn, hbmap]
    simp only [if_neg (show ¬ f.block (place (off / bsize)) = 0 from hmapped)]
    have hsum := map_range_add (fun i => f.byte (off + i)) m (n - m)
    rw [Nat.add_sub_cancel' hm] at hsum
    rw [hrest, Option.map_some, hfirst, hsum]
    simp only [Nat.add_assoc]

/-- A read below the size returns the bytes of the content. -/
theorem readi_eq {f : File} (hf : f.Wf) {off n : Nat} (hoff : off + n ≤ f.ip.size) :
    readi f off n = some ((f.content.drop off).take n, f) := by
  have hlt : off + n < 4294967296 := by
    have := hf.size_le
    simp only [maxfile, ndirect, nindirect, bsize] at this
    omega
  rw [readi, if_neg (by rw [Nat.mod_eq_of_lt hlt]; omega)]
  simp only
  rw [if_neg (by omega), readiLoop_eq hf off n (Nat.le_refl n) hoff]
  have hbytes : (f.content.drop off).take n = (List.range n).map fun i => f.byte (off + i) := by
    refine List.ext_getElem (by simp; omega) fun i _ _ => ?_
    simp [File.content]
  rw [hbytes]

/-! ## Truncating -/

/-- An inode without blocks. -/
def File.empty (d : Disk) : File := ⟨d, ⟨0, fun _ => 0⟩, ⟨0, fun _ => 0⟩⟩

theorem File.empty_wf {d : Disk} (hboot : d.used 0 = true) : (File.empty d).Wf := by
  have hblock : ∀ k, (File.empty d).block k = 0 := by
    intro k
    by_cases hk : k ≤ ndirect
    · rw [File.block_of_le hk]
      rfl
    · exact File.block_eq_zero (by omega) rfl
  exact ⟨hboot, fun k _ hne => absurd (hblock k) hne, fun j _ _ _ _ hne => absurd (hblock j) hne,
    Nat.zero_le _, fun bn hlt => absurd hlt (Nat.not_lt_zero _)⟩

/-- Blocks in use that are listed once can be freed one after the other. -/
theorem freeAll_spec {bs : List Nat} {d : Disk} (hused : ∀ b ∈ bs, b ≠ 0 → d.used b = true)
    (hdistinct : bs.Pairwise fun a b => a ≠ 0 → a ≠ b) :
    ∃ d', freeAll bs d = some d' ∧ d'.data = d.data ∧
      ∀ b, b = 0 ∨ b ∉ bs → d'.used b = d.used b := by
  induction bs generalizing d with
  | nil => exact ⟨d, rfl, rfl, fun _ _ => rfl⟩
  | cons a bs ih =>
    obtain ⟨hhead, htail⟩ := List.pairwise_cons.mp hdistinct
    have hrest : ∀ b ∈ bs, b ≠ 0 → d.used b = true :=
      fun b hb => hused b (List.mem_cons_of_mem _ hb)
    by_cases ha : a = 0
    · obtain ⟨d', heq, hdata, hkeep⟩ := ih hrest htail
      refine ⟨d', by rw [freeAll, if_pos ha, heq], hdata, fun b hb => hkeep b ?_⟩
      exact hb.imp_right fun h hmem => h (List.mem_cons_of_mem _ hmem)
    · let e : Disk := { d with used := Function.update d.used a false }
      have hfree : bfree d a = some e := if_pos (hused a List.mem_cons_self ha)
      have hstill : ∀ b ∈ bs, b ≠ 0 → e.used b = true := fun b hb hne =>
        (Function.update_of_ne (hhead b hb ha).symm ..).trans (hrest b hb hne)
      obtain ⟨d', heq, hdata, hkeep⟩ := ih hstill htail
      refine ⟨d', by rw [freeAll, if_neg ha, hfree, Option.bind_some, heq], hdata, fun b hb => ?_⟩
      have hba : b ≠ a := by
        rintro rfl
        exact hb.elim ha fun h => h List.mem_cons_self
      rw [hkeep b (hb.imp_right fun h hmem => h (List.mem_cons_of_mem _ hmem))]
      exact Function.update_of_ne hba ..

/-- The blocks at a range of places can be freed, and the others stay in use. -/
theorem File.Wf.freeAll {f : File} (hf : f.Wf) (d : Disk) (start n : Nat)
    (hle : start + n ≤ maxfile + 1)
    (hused : ∀ i < n, f.block (start + i) ≠ 0 → d.used (f.block (start + i)) = true) :
    ∃ d', Fs.freeAll ((List.range n).map fun i => f.block (start + i)) d = some d' ∧
      d'.data = d.data ∧ d'.used 0 = d.used 0 ∧
      ∀ k ≤ maxfile, k < start ∨ start + n ≤ k → f.block k ≠ 0 →
        d'.used (f.block k) = d.used (f.block k) := by
  have hall : ∀ b ∈ (List.range n).map (fun i => f.block (start + i)), b ≠ 0 →
      d.used b = true := by
    intro b hb hne
    obtain ⟨i, hi, rfl⟩ := List.mem_map.mp hb
    exact hused i (List.mem_range.mp hi) hne
  have hdistinct : ((List.range n).map fun i => f.block (start + i)).Pairwise
      fun a b => a ≠ 0 → a ≠ b := by
    rw [List.pairwise_map]
    refine List.Pairwise.imp_of_mem ?_ (List.nodup_range (n := n))
    intro i j hi hj hij hne heq
    have hi : i < n := List.mem_range.mp hi
    have hj : j < n := List.mem_range.mp hj
    have := hf.distinct _ (by omega) _ (by omega) heq hne
    omega
  obtain ⟨d', heq, hdata, hkeep⟩ := freeAll_spec hall hdistinct
  refine ⟨d', heq, hdata, hkeep 0 (Or.inl rfl), fun k hk hout hne => ?_⟩
  refine hkeep _ (Or.inr fun hmem => ?_)
  obtain ⟨i, hi, hik⟩ := List.mem_map.mp hmem
  have hi : i < n := List.mem_range.mp hi
  have := hf.distinct _ (by omega) k hk hik (by rwa [hik])
  omega

/-- Truncation frees every block of the file once and leaves it empty. -/
theorem itrunc_spec {f : File} (hf : f.Wf) :
    ∃ d, itrunc f = some (.empty d) ∧ d.used 0 = true := by
  have hdirect : (List.range ndirect).map f.ip.addrs =
      (List.range ndirect).map fun i => f.block (0 + i) := by
    refine List.map_congr_left fun i hi => ?_
    rw [Nat.zero_add, File.block_of_le (List.mem_range.mp hi).le]
  obtain ⟨d, hfree, hdata, hboot, hkeep⟩ := hf.freeAll f.disk 0 ndirect (by simp)
    fun i hi => hf.used _ (by simp at hi ⊢; omega)
  have hblock : f.block ndirect = f.ip.addrs ndirect := File.block_of_le (Nat.le_refl _)
  unfold itrunc
  rw [hdirect, hfree, Option.bind_some]
  by_cases hind : f.ip.addrs ndirect = 0
  · simp only [if_pos hind, Option.map_some]
    exact ⟨d, rfl, hboot.trans hf.boot⟩
  have hwords : (List.range nindirect).map (word (d.data (f.ip.addrs ndirect))) =
      (List.range nindirect).map fun i => f.block (ndirect + 1 + i) := by
    refine List.map_congr_left fun i hi => ?_
    rw [File.block_of_lt (by omega) hind, hdata, Nat.add_sub_cancel_left]
  obtain ⟨d', hfree', -, hboot', hkeep'⟩ := hf.freeAll d (ndirect + 1) nindirect
    (by simp) fun i hi hne => by
      have hle : ndirect + 1 + i ≤ maxfile := by simp at hi ⊢; omega
      rw [hkeep _ hle (by simp; omega) hne]
      exact hf.used _ hle hne
  have hused : d'.used (f.ip.addrs ndirect) = true := by
    rw [← hblock] at hind ⊢
    rw [hkeep' ndirect (by simp) (by simp) hind, hkeep ndirect (by simp) (by simp) hind]
    exact hf.used ndirect (by simp) hind
  simp only [if_neg hind]
  rw [hwords, hfree', Option.bind_some, bfree, if_pos hused, Option.map_some]
  refine ⟨_, rfl, ?_⟩
  have hne : (0 : Nat) ≠ f.ip.addrs ndirect := Ne.symm hind
  exact (Function.update_of_ne hne ..).trans (hboot'.trans (hboot.trans hf.boot))

end LiberalOS.Kernel.Fs
