import Mathlib.Data.Vector.Basic
import LiberalOS.Foundation.FixedCodec
import LiberalOS.Kernel.Strings

/-!
# Response-cache slots: keys, signatures and the record layout

The pure part of `kernel/cache.c` and the `struct cache_slot` of `kernel/cache.h`. Words are
`UInt64` as in the source, so the hashes wrap exactly as they do there.

## Main definitions

* `cacheFnv1a` — the 64-bit key of a (role, prompt) pair.
* `cacheSig`, `sigMatch`, `sigOverThreshold` — MinHash signatures and the semantic-hit test.
* `slotCodec` — the 344-byte record of `/cache.bin`.
-/
namespace LiberalOS.Cache
open Foundation Kernel

@[simp] abbrev cacheNslot : Nat := 64
@[simp] abbrev cacheVallen : Nat := 192
@[simp] abbrev cacheRolelen : Nat := 16
@[simp] abbrev cacheSigK : Nat := 16
@[simp] abbrev cacheSigNum : Nat := 2
@[simp] abbrev cacheSigDen : Nat := 5

/-- The `sig` field: one running minimum per hash function. -/
abbrev Sig := List.Vector UInt64 cacheSigK

@[ext] structure CacheSlot where
  key : UInt64
  role : List.Vector UInt8 cacheRolelen
  sig : Sig
  val : List.Vector UInt8 cacheVallen
  deriving DecidableEq

/-- The role string of a slot. -/
def CacheSlot.roleStr (s : CacheSlot) : List UInt8 := cstr s.role.toList

/-- The value string of a slot. -/
def CacheSlot.valStr (s : CacheSlot) : List UInt8 := cstr s.val.toList

/-! ## Exact keys -/

def fnvBasis : UInt64 := 1469598103934665603
def fnvPrime : UInt64 := 1099511628211

/-- One round of FNV-1a. -/
def fnvByte (h : UInt64) (c : UInt8) : UInt64 := (h ^^^ c.toUInt64) * fnvPrime

/-- The `'|'` between role and prompt. -/
def separator : UInt8 := 124

/-- FNV-1a of "role|prompt"; 0 is reserved for empty slots. -/
def cacheFnv1a (role prompt : CString) : UInt64 :=
  let h := role.bytes.foldl fnvByte fnvBasis
  let h := fnvByte h separator
  let h := prompt.bytes.foldl fnvByte h
  if h = 0 then 1 else h

theorem cacheFnv1a_ne_zero (role prompt : CString) : cacheFnv1a role prompt ≠ 0 := by
  unfold cacheFnv1a
  dsimp only
  split
  · decide
  · assumption

/-- The byte string that is hashed. -/
def hashed (role prompt : CString) : List UInt8 := role.bytes ++ separator :: prompt.bytes

/-! ## Signatures -/

def stopwords : List (List UInt8) :=
  ["the", "a", "an", "please", "to", "of", "and", "is", "are", "in", "on", "at", "for", "with",
    "this", "that", "it", "be", "can", "you", "me"].map fun w => (CString.lit w).bytes

/-- The inner loop of `is_stopword`: both strings end at the same place without a difference. -/
def sameWord : List UInt8 → List UInt8 → Bool
  | [], w => w.headD 0 == 0
  | c :: s, w => c == w.headD 0 && sameWord s w.tail

def isStopword (w : List UInt8) : Bool := stopwords.any fun s => sameWord s w

/-- Fold one word into the signature: `h1 + k * h2` gives the `k`-th hash function, and each
position keeps the running minimum. -/
def sigFoldWord (sig : Sig) (word : List UInt8) : Sig :=
  let h1 := word.foldl (fun h c => (h ^^^ c.toUInt64) * 1099511628211) (1469598103934665603 : UInt64)
  let h2 := word.foldl (fun h c => (h ^^^ c.toUInt64) * 1469598103934665603) (1099511628211 : UInt64)
  let h2 := h2 ||| 1
  List.Vector.ofFn fun k =>
    let hk := h1 + UInt64.ofNat k * h2
    if hk < sig.get k then hk else sig.get k

/-- The locals of `cache_sig`: the bytes of `word[0..wl)` and the signature so far. -/
structure SigState where
  word : List UInt8
  sig : Sig

def toLower (c : UInt8) : UInt8 := if 65 ≤ c ∧ c ≤ 90 then c - 65 + 97 else c

def isAlnum (c : UInt8) : Bool := (97 ≤ c && c ≤ 122) || (48 ≤ c && c ≤ 57)

/-- A separator ends the current word, which counts unless it is empty or a stopword. -/
def sigFlush (s : SigState) : SigState :=
  if s.word = [] then s
  else ⟨[], if isStopword s.word then s.sig else sigFoldWord s.sig s.word⟩

/-- One iteration of the scan; a word keeps its first 31 bytes. -/
def sigChar (s : SigState) (c : UInt8) : SigState :=
  let c := toLower c
  if isAlnum c then
    if s.word.length < 31 then { s with word := s.word ++ [c] } else s
  else sigFlush s

/-- The MinHash signature of a prompt. The last byte scanned is the terminating NUL. -/
def cacheSig (prompt : CString) : Sig :=
  (sigChar (prompt.bytes.foldl sigChar ⟨[], List.Vector.replicate _ (0 - 1)⟩) 0).sig

/-- Number of signature positions where two signatures agree. -/
def sigMatch (a b : Sig) : Nat :=
  (List.finRange cacheSigK).countP fun k => a.get k == b.get k

def sigOverThreshold (m : Int) : Bool := m * cacheSigDen ≥ cacheSigNum * cacheSigK

theorem sigOverThreshold_iff (m : Nat) : sigOverThreshold m = true ↔ 7 ≤ m := by
  simp [sigOverThreshold]
  omega

/-! ## The record layout -/

/-- Read a character array out of a record. -/
def charField (n off : Nat) (bs : List UInt8) : List.Vector UInt8 n :=
  List.Vector.ofFn fun i => bs.getD (off + i) 0

/-- Read a 64-bit word out of a record. -/
def wordField (off : Nat) (bs : List UInt8) : UInt64 := UInt64.ofNat (leNat ((bs.drop off).take 8))

def wordBytes (x : UInt64) : List UInt8 := leBytes 8 x.toNat

/-- The members in declaration order; the structure has no padding. -/
def encodeSlot (s : CacheSlot) : List UInt8 :=
  wordBytes s.key ++ (s.role.toList ++ (s.sig.toList.flatMap wordBytes ++ s.val.toList))

def decodeSlot (bs : List UInt8) : CacheSlot where
  key := wordField 0 bs
  role := charField _ 8 bs
  sig := List.Vector.ofFn fun k => wordField (24 + 8 * k) bs
  val := charField _ 152 bs

@[simp] theorem length_wordBytes (x : UInt64) : (wordBytes x).length = 8 := length_leBytes _ _

theorem length_flatMap_wordBytes (ws : List UInt64) :
    (ws.flatMap wordBytes).length = 8 * ws.length := by
  induction ws with
  | nil => rfl
  | cons w ws ih => simp [ih]; omega

theorem length_encodeSlot (s : CacheSlot) : (encodeSlot s).length = 344 := by
  simp [encodeSlot]

theorem wordField_wordBytes {pre : List UInt8} (x : UInt64) (post : List UInt8) {off : Nat}
    (h : pre.length = off) : wordField off (pre ++ (wordBytes x ++ post)) = x := by
  subst h
  have hx := x.toNat_lt
  rw [wordField, List.drop_left, ← length_wordBytes x, List.take_left, wordBytes, leNat_leBytes,
    Nat.mod_eq_of_lt (by simpa using hx)]
  exact UInt64.ofNat_toNat

theorem charField_toList {n : Nat} {pre : List UInt8} (v : List.Vector UInt8 n)
    (post : List UInt8) {off : Nat} (h : pre.length = off) :
    charField n off (pre ++ (v.toList ++ post)) = v := by
  subst h
  apply List.Vector.ext
  intro i
  have hi : (i : Nat) < v.toList.length := by simp
  simp only [charField, List.Vector.get_ofFn, List.getD_eq_getElem?_getD,
    List.getElem?_append_right (Nat.le_add_right _ _), Nat.add_sub_cancel_left]
  rw [List.getElem?_append_left hi, List.getElem?_eq_getElem hi, Option.getD_some,
    List.Vector.get_eq_get_toList]
  simp

/-- Splitting the signature words around position `k`. -/
theorem flatMap_wordBytes_split (sig : Sig) (k : Fin cacheSigK) :
    ∃ before after, sig.toList.flatMap wordBytes = before ++ (wordBytes (sig.get k) ++ after) ∧
      before.length = 8 * k := by
  have hk : (k : Nat) < sig.toList.length := by simp
  refine ⟨(sig.toList.take k).flatMap wordBytes, (sig.toList.drop (k + 1)).flatMap wordBytes,
    ?_, ?_⟩
  · have hget : sig.get k = sig.toList[(k : Nat)] := by
      rw [List.Vector.get_eq_get_toList]
      simp
    conv_lhs => rw [← List.take_append_drop k sig.toList, List.drop_eq_getElem_cons hk]
    rw [List.flatMap_append, List.flatMap_cons, hget]
  · rw [length_flatMap_wordBytes, List.length_take, Nat.min_eq_left hk.le]

theorem decodeSlot_encodeSlot (s : CacheSlot) : decodeSlot (encodeSlot s) = s := by
  apply CacheSlot.ext
  · exact @wordField_wordBytes [] s.key _ 0 rfl
  · exact charField_toList s.role _ (length_wordBytes _)
  · apply List.Vector.ext
    intro k
    obtain ⟨before, after, hsplit, hlen⟩ := flatMap_wordBytes_split s.sig k
    have hpre : (wordBytes s.key ++ (s.role.toList ++ before)).length = 24 + 8 * k := by
      simp [hlen]
      omega
    have := wordField_wordBytes (s.sig.get k) (after ++ s.val.toList) hpre
    simpa [decodeSlot, encodeSlot, hsplit, List.append_assoc] using this
  · have hpre : (wordBytes s.key ++ (s.role.toList ++ s.sig.toList.flatMap wordBytes)).length
        = 152 := by
      simp
    have := charField_toList s.val [] hpre
    simpa [decodeSlot, encodeSlot, List.append_assoc] using this

/-- `sizeof(struct cache_slot)` bytes per record. -/
def slotCodec : FixedCodec CacheSlot where
  width := 344
  encode := encodeSlot
  decode := decodeSlot
  width_pos := by decide
  length_encode := length_encodeSlot
  decode_encode := decodeSlot_encodeSlot

end LiberalOS.Cache
