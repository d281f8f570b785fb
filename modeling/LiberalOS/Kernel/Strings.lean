import LiberalOS.Foundation.NulString

/-!
# String primitives of the kernel

`safestrcpy` and `strncmp` of `kernel/string.c`. A destination is the list of bytes of its
buffer; a source is the list of bytes from the source pointer on, and reading past the end of a
list reads the implicit terminator of a string given by its content. `strncmpIn` and `copiedBytes`
are the same on arrays, behind which there is nothing to read.
-/
namespace LiberalOS.Kernel
open Foundation

/-! ## safestrcpy -/

/-- The store `*s = 0` at the current destination. -/
def putNul : List UInt8 → List UInt8
  | [] => []
  | _ :: d => 0 :: d

/-- The copy loop with room for `n` bytes of text. A NUL that is copied advances the destination,
so the closing store writes a second NUL behind it. -/
def safestrcpyLoop : Nat → List UInt8 → List UInt8 → List UInt8
  | 0, d, _ => putNul d
  | _ + 1, [], _ => []
  | n + 1, _ :: d, t =>
    if t.headD 0 = 0 then 0 :: putNul d else t.headD 0 :: safestrcpyLoop n d t.tail

/-- Like `strncpy` but guaranteed to NUL-terminate. -/
def safestrcpy (s t : List UInt8) (n : Int) : List UInt8 :=
  if n ≤ 0 then s else safestrcpyLoop (n.toNat - 1) s t

@[simp] theorem length_putNul (d : List UInt8) : (putNul d).length = d.length := by
  cases d <;> rfl

@[simp] theorem length_safestrcpyLoop (n : Nat) (d t : List UInt8) :
    (safestrcpyLoop n d t).length = d.length := by
  induction n generalizing d t with
  | zero => simp [safestrcpyLoop]
  | succ n ih =>
    cases d with
    | nil => rfl
    | cons b d =>
      simp only [safestrcpyLoop]
      split <;> simp [ih]

@[simp] theorem length_safestrcpy (s t : List UInt8) (n : Int) :
    (safestrcpy s t n).length = s.length := by
  unfold safestrcpy
  split <;> simp

theorem cstr_safestrcpyLoop {n : Nat} {d : List UInt8} (h : n < d.length) (t : List UInt8) :
    cstr (safestrcpyLoop n d t) = (cstr t).take n := by
  induction n generalizing d t with
  | zero =>
    cases d with
    | nil => simp at h
    | cons b d => simp [safestrcpyLoop, putNul]
  | succ n ih =>
    cases d with
    | nil => simp at h
    | cons b d =>
      have hd : n < d.length := by simpa using h
      cases t with
      | nil => simp [safestrcpyLoop]
      | cons c t =>
        by_cases hc : c = 0
        · simp [safestrcpyLoop, hc]
        · simp [safestrcpyLoop, hc, ih hd]

/-- The string that lands in a large enough destination is the source cut to `n - 1` bytes. -/
theorem cstr_safestrcpy {s : List UInt8} {n : Int} (hn : 1 ≤ n) (hs : n ≤ s.length)
    (t : List UInt8) : cstr (safestrcpy s t n) = (cstr t).take (n.toNat - 1) := by
  have hpos : ¬ n ≤ 0 := by omega
  simp only [safestrcpy, if_neg hpos]
  exact cstr_safestrcpyLoop (by omega) t

/-- The bytes a copy stores: the cut source and one or two terminators. -/
theorem safestrcpyLoop_eq {n : Nat} {d : List UInt8} (h : n < d.length) (t : List UInt8) :
    safestrcpyLoop n d t =
      ((cstr t).take n ++ [0, 0]).take (n + 1) ++ d.drop (min ((cstr t).length + 2) (n + 1)) := by
  induction n generalizing d t with
  | zero =>
    cases d with
    | nil => simp at h
    | cons b d => simp [safestrcpyLoop, putNul]
  | succ n ih =>
    cases d with
    | nil => simp at h
    | cons b d =>
      have hd : n < d.length := by simpa using h
      obtain ⟨b', d', rfl⟩ := List.exists_cons_of_length_pos (Nat.zero_lt_of_lt hd)
      cases t with
      | nil => simp [safestrcpyLoop, putNul]
      | cons c t =>
        by_cases hc : c = 0
        · simp [safestrcpyLoop, putNul, hc]
        · have hmin : min ((cstr t).length + 1 + 2) (n + 1 + 1) =
              min ((cstr t).length + 2) (n + 1) + 1 := by omega
          simp [safestrcpyLoop, hc, ih hd, hmin]

/-- Whatever the destination held before is left behind the terminators. -/
theorem safestrcpy_eq {s : List UInt8} {n : Nat} (hn : 1 ≤ n) (hs : n ≤ s.length)
    (t : List UInt8) : safestrcpy s t n =
      ((cstr t).take (n - 1) ++ [0, 0]).take n ++ s.drop (min ((cstr t).length + 2) n) := by
  have hpos : ¬ (n : Int) ≤ 0 := by omega
  obtain ⟨m, rfl⟩ : ∃ m, n = m + 1 := ⟨n - 1, by omega⟩
  simp only [safestrcpy, if_neg hpos, Int.toNat_natCast, Nat.add_sub_cancel]
  exact safestrcpyLoop_eq (by omega) t

/-- A copy reads its source up to the terminator. -/
theorem safestrcpyLoop_cstr (n : Nat) (d t : List UInt8) :
    safestrcpyLoop n d (cstr t) = safestrcpyLoop n d t := by
  induction n generalizing d t with
  | zero => rfl
  | succ n ih =>
    cases d with
    | nil => rfl
    | cons b d =>
      cases t with
      | nil => rfl
      | cons c t =>
        by_cases hc : c = 0
        · simp [safestrcpyLoop, hc]
        · simp [safestrcpyLoop, hc, ih]

theorem safestrcpy_congr {t t' : List UInt8} (h : cstr t = cstr t') (s : List UInt8) (n : Int) :
    safestrcpy s t n = safestrcpy s t' n := by
  unfold safestrcpy
  rw [← safestrcpyLoop_cstr _ _ t, h, safestrcpyLoop_cstr]

theorem putNul_putNul (d : List UInt8) : putNul (putNul d) = putNul d := by
  cases d <;> rfl

theorem safestrcpyLoop_idem (n : Nat) (d t : List UInt8) :
    safestrcpyLoop n (safestrcpyLoop n d t) t = safestrcpyLoop n d t := by
  induction n generalizing d t with
  | zero => exact putNul_putNul d
  | succ n ih =>
    cases d with
    | nil => rfl
    | cons b d =>
      by_cases hc : t.headD 0 = 0
      · simp only [safestrcpyLoop, if_pos hc, putNul_putNul]
      · simp only [safestrcpyLoop, if_neg hc, ih]

/-- The same copy over its own result. -/
theorem safestrcpy_idem (s t : List UInt8) (n : Int) :
    safestrcpy (safestrcpy s t n) t n = safestrcpy s t n := by
  unfold safestrcpy
  split
  · rfl
  · exact safestrcpyLoop_idem _ _ _

/-! ## strncmp -/

/-- Compare at most `n` bytes; the result is the difference of the first bytes that differ. -/
def strncmp : List UInt8 → List UInt8 → Nat → Int
  | _, _, 0 => 0
  | p, q, n + 1 =>
    if p.headD 0 ≠ 0 ∧ p.headD 0 = q.headD 0 then strncmp p.tail q.tail n
    else (p.headD 0).toNat - (q.headD 0).toNat

theorem strncmp_eq_zero_iff (p q : List UInt8) (n : Nat) :
    strncmp p q n = 0 ↔ (cstr p).take n = (cstr q).take n := by
  induction n generalizing p q with
  | zero => simp [strncmp]
  | succ n ih =>
    have key : ∀ a b : UInt8, ((a.toNat : Int) - b.toNat = 0 ↔ a = b) := by
      intro a b
      rw [← UInt8.toNat_inj]
      omega
    cases p with
    | nil =>
      cases q with
      | nil => simp [strncmp]
      | cons b q =>
        by_cases hb : b = 0
        · simp [strncmp, hb]
        · have := (key 0 b).not.mpr (Ne.symm hb)
          simpa [strncmp, hb] using this
    | cons a p =>
      cases q with
      | nil =>
        by_cases ha : a = 0
        · simp [strncmp, ha]
        · have := (key a 0).not.mpr ha
          simpa [strncmp, ha] using this
      | cons b q =>
        by_cases ha : a = 0
        · by_cases hb : b = 0
          · simp [strncmp, ha, hb]
          · have := (key 0 b).not.mpr (Ne.symm hb)
            simpa [strncmp, ha, hb] using this
        · by_cases hab : a = b
          · subst hab
            simp [strncmp, ha, ih]
          · have := (key a b).not.mpr hab
            by_cases hb : b = 0 <;> simp_all [strncmp]

/-! ## Reads within arrays -/

/-- `strncmp` on two arrays; a read behind the end of one is `none`. -/
def strncmpIn : List UInt8 → List UInt8 → Nat → Option Int
  | _, _, 0 => some 0
  | a :: p, b :: q, n + 1 =>
    if a ≠ 0 ∧ a = b then strncmpIn p q n else some (a.toNat - b.toNat)
  | _, _, _ + 1 => none

/-- An array of `n` bytes and a string are compared without reading behind them. -/
theorem strncmpIn_eq {p : List UInt8} {n : Nat} (hp : n ≤ p.length) (q : List UInt8) :
    strncmpIn p (q ++ [0]) n = some (strncmp p q n) := by
  induction n generalizing p q with
  | zero => rw [strncmpIn, strncmp]
  | succ n ih =>
    obtain ⟨a, p, rfl⟩ := List.exists_cons_of_length_pos (Nat.zero_lt_of_lt hp)
    cases q with
    | nil => simp [strncmpIn, strncmp]
    | cons b q =>
      rw [List.cons_append, strncmpIn, strncmp, List.headD_cons, List.headD_cons]
      split
      · exact ih (Nat.le_of_succ_le_succ hp) q
      · rfl

/-- The bytes that the copy loop of `safestrcpy` stores, with room for `n` bytes of text, from an
array; a read behind its end is `none`. -/
def copiedLoop : Nat → List UInt8 → Option (List UInt8)
  | 0, _ => some [0]
  | _ + 1, [] => none
  | n + 1, c :: t => if c = 0 then some [0, 0] else (copiedLoop n t).map (c :: ·)

/-- The bytes that `safestrcpy` stores. -/
def copiedBytes (t : List UInt8) (n : Int) : Option (List UInt8) :=
  if n ≤ 0 then some [] else copiedLoop (n.toNat - 1) t

/-- The bytes end in a NUL, and are what the loop leaves at the front of its destination. -/
theorem copiedLoop_eq (n : Nat) {t : List UInt8} (ht : 0 ∈ t) :
    ∃ text, copiedLoop n t = some (text ++ [0]) ∧ text.length ≤ n ∧
      ∀ d : List UInt8, n < d.length →
        safestrcpyLoop n d t = text ++ [0] ++ d.drop (text.length + 1) := by
  induction n generalizing t with
  | zero =>
    refine ⟨[], by rw [copiedLoop, List.nil_append], Nat.le_refl _, fun d hd => ?_⟩
    obtain ⟨b, d, rfl⟩ := List.exists_cons_of_length_pos hd
    rfl
  | succ n ih =>
    obtain ⟨c, t, rfl⟩ := List.exists_cons_of_ne_nil (List.ne_nil_of_mem ht)
    by_cases hc : c = 0
    · refine ⟨[0], by simp [copiedLoop, hc], by simp, fun d hd => ?_⟩
      obtain ⟨b, d, rfl⟩ := List.exists_cons_of_length_pos (Nat.zero_lt_of_lt hd)
      obtain ⟨b', d, rfl⟩ := List.exists_cons_of_length_pos (l := d) (by simp at hd; omega)
      simp [safestrcpyLoop, putNul, hc]
    · obtain ⟨text, htext, hlen, hloop⟩ := ih (List.mem_of_ne_of_mem (Ne.symm hc) ht)
      refine ⟨c :: text, by simp [copiedLoop, hc, htext], by simpa using hlen, fun d hd => ?_⟩
      obtain ⟨b, d, rfl⟩ := List.exists_cons_of_length_pos (Nat.zero_lt_of_lt hd)
      simp [safestrcpyLoop, hc, hloop d (by simpa using hd)]

/-- A copy of a string in an array stores at most `n` bytes, the last one a NUL. -/
theorem copiedBytes_eq {t : List UInt8} (ht : 0 ∈ t) {n : Int} (hn : 1 ≤ n) :
    ∃ text, copiedBytes t n = some (text ++ [0]) ∧ (text ++ [0]).length ≤ n ∧
      ∀ s : List UInt8, n ≤ s.length →
        safestrcpy s t n = text ++ [0] ++ s.drop (text ++ [0]).length := by
  obtain ⟨text, htext, hlen, hloop⟩ := copiedLoop_eq (n.toNat - 1) ht
  have hpos : ¬ n ≤ 0 := by omega
  have hlength : (text ++ [0]).length = text.length + 1 := by simp
  refine ⟨text, by rw [copiedBytes, if_neg hpos, htext], by omega, fun s hs => ?_⟩
  rw [safestrcpy, if_neg hpos, hloop s (by omega), hlength]

end LiberalOS.Kernel
