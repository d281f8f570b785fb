import Mathlib.Data.Finset.Image
import LiberalOS.Cache.Slot

/-!
# Content words and signatures

`contentWords` states what a signature is meant to depend on: the set of words of a prompt, without
stopwords. The one-pass tokenizer of `cache_sig` folds exactly these words, each as often as it
occurs, and a running minimum does not depend on order or repetition.

## Main results

* `cacheSig_isMinHash` — every position of a signature is the least hash of a content word.
* `cacheSig_congr` — prompts with the same content words have the same signature.
* `exists_common_word` — signatures that agree somewhere share a word, unless neither has one.
-/
namespace LiberalOS.Cache
open Foundation Kernel

/-! ## Content words -/

/-- ASCII letters and digits. -/
def asciiAlnum (c : UInt8) : Bool :=
  (65 ≤ c && c ≤ 90) || (97 ≤ c && c ≤ 122) || (48 ≤ c && c ≤ 57)

/-- A run of letters and digits as a word: in lower case, cut to 31 bytes. -/
def normalize (run : List UInt8) : List UInt8 := (run.map toLower).take 31

/-- The words of a text in order, stopwords and repetitions included. -/
def wordsOf (text : List UInt8) : List (List UInt8) :=
  ((text.splitOnP fun c => !asciiAlnum c).filter (· ≠ [])).map normalize

/-- The set of words of a prompt that carry meaning. -/
def contentWords (prompt : CString) : Finset (List UInt8) :=
  (wordsOf prompt.bytes).toFinset \ stopwords.toFinset

/-- The `k`-th hash function of `sig_fold_word`. -/
def wordHash (k : Fin cacheSigK) (word : List UInt8) : UInt64 :=
  let h1 := word.foldl (fun h c => (h ^^^ c.toUInt64) * 1099511628211) 1469598103934665603
  let h2 := word.foldl (fun h c => (h ^^^ c.toUInt64) * 1469598103934665603) 1099511628211
  h1 + UInt64.ofNat k * (h2 ||| 1)

/-- The least hash of a set of words, `2^64 - 1` for the empty set. -/
def IsMinHash (words : Finset (List UInt8)) (k : Fin cacheSigK) (m : UInt64) : Prop :=
  (words = ∅ ∧ m = 18446744073709551615) ∨
    (∃ w ∈ words, m = wordHash k w) ∧ ∀ w ∈ words, m ≤ wordHash k w

theorem IsMinHash.unique {words : Finset (List UInt8)} {k : Fin cacheSigK} {m m' : UInt64}
    (h : IsMinHash words k m) (h' : IsMinHash words k m') : m = m' := by
  rcases h with ⟨hempty, rfl⟩ | ⟨⟨w, hw, rfl⟩, hle⟩
  · rcases h' with ⟨-, rfl⟩ | ⟨⟨w, hw, -⟩, -⟩
    · rfl
    · simp [hempty] at hw
  · rcases h' with ⟨hempty, -⟩ | ⟨⟨w', hw', rfl⟩, hle'⟩
    · simp [hempty] at hw
    · exact UInt64.le_antisymm (hle w' hw') (hle' w hw)

/-! ## The tokenizer -/

theorem isAlnum_toLower (c : UInt8) : isAlnum (toLower c) = asciiAlnum c := by
  unfold isAlnum toLower asciiAlnum
  split
  · next h => grind
  · next h => grind

/-- A word of the tokenizer is a string, so comparing with it finds equal strings. -/
theorem sameWord_eq_true_iff {s w : List UInt8} (hs : (0 : UInt8) ∉ s) (hw : (0 : UInt8) ∉ w) :
    sameWord s w = true ↔ s = w := by
  induction s generalizing w with
  | nil =>
    cases w with
    | nil => simp [sameWord]
    | cons c w =>
      have hc : c ≠ 0 := fun h => hw (h ▸ List.mem_cons_self)
      simp [sameWord, hc]
  | cons b s ih =>
    have hb : b ≠ 0 := fun h => hs (h ▸ List.mem_cons_self)
    have hs' : (0 : UInt8) ∉ s := fun h => hs (List.mem_cons_of_mem _ h)
    cases w with
    | nil => simp [sameWord, hb]
    | cons c w =>
      have hw' : (0 : UInt8) ∉ w := fun h => hw (List.mem_cons_of_mem _ h)
      simp [sameWord, ih hs' hw']

theorem zero_not_mem_stopword {s : List UInt8} (h : s ∈ stopwords) : (0 : UInt8) ∉ s := by
  obtain ⟨text, -, rfl⟩ := List.mem_map.mp h
  exact (CString.lit text).nul_free

theorem isStopword_iff {w : List UInt8} (hw : (0 : UInt8) ∉ w) :
    isStopword w = true ↔ w ∈ stopwords := by
  simp only [isStopword, List.any_eq_true]
  constructor
  · rintro ⟨s, hs, hsame⟩
    exact (sameWord_eq_true_iff (zero_not_mem_stopword hs) hw).mp hsame ▸ hs
  · exact fun h => ⟨w, h, (sameWord_eq_true_iff (zero_not_mem_stopword h) hw).mpr rfl⟩

theorem zero_not_mem_normalize {run : List UInt8} (h : ∀ c ∈ run, asciiAlnum c = true) :
    (0 : UInt8) ∉ normalize run := by
  intro hmem
  obtain ⟨c, hc, hzero⟩ := List.mem_map.mp (List.mem_of_mem_take hmem)
  have halnum := h c hc
  rw [← isAlnum_toLower, hzero] at halnum
  cases halnum

theorem normalize_eq_nil_iff {run : List UInt8} : normalize run = [] ↔ run = [] := by
  simp [normalize]

/-- The words that are folded into a signature when the runs end. -/
def foldRuns (sig : Sig) (runs : List (List UInt8)) : Sig :=
  (((runs.filter (· ≠ [])).map normalize).filter (!stopwords.contains ·)).foldl sigFoldWord sig

/-- The word so far grows by a byte, unless it is full. -/
theorem sigChar_alnum {sig : Sig} {word : List UInt8} {c : UInt8} (hc : asciiAlnum c = true) :
    sigChar ⟨word.take 31, sig⟩ c = ⟨(word ++ [toLower c]).take 31, sig⟩ := by
  have halnum : isAlnum (toLower c) = true := by rw [isAlnum_toLower, hc]
  simp only [sigChar, if_pos halnum]
  by_cases hlen : word.length < 31
  · have hroom : (word.take 31).length < 31 := by
      rw [List.length_take]
      omega
    rw [if_pos hroom, List.take_of_length_le hlen.le, List.take_of_length_le (by simp; omega)]
  · have hfull : ¬ (word.take 31).length < 31 := by
      rw [List.length_take]
      omega
    rw [if_neg hfull, List.take_append_of_le_length (by omega)]

theorem normalize_concat (run : List UInt8) (c : UInt8) :
    normalize (run ++ [c]) = (run.map toLower ++ [toLower c]).take 31 := by
  simp [normalize]

/-- A separator ends the run. -/
theorem sigChar_separator {sig : Sig} {acc : List UInt8} {c : UInt8} (hc : asciiAlnum c = false)
    (hacc : ∀ b ∈ acc, asciiAlnum b = true) :
    sigChar ⟨normalize acc.reverse, sig⟩ c = ⟨[], foldRuns sig [acc.reverse]⟩ := by
  have hsep : ¬ isAlnum (toLower c) = true := by simp [isAlnum_toLower, hc]
  simp only [sigChar, if_neg hsep, sigFlush, normalize_eq_nil_iff, List.reverse_eq_nil_iff]
  by_cases hnil : acc = []
  · subst hnil
    rfl
  · have hrun : ∀ b ∈ acc.reverse, asciiAlnum b = true := by simpa using hacc
    have hstop := isStopword_iff (zero_not_mem_normalize hrun)
    by_cases hmem : normalize acc.reverse ∈ stopwords
    · simp [foldRuns, hnil, hstop, hmem]
    · simp [foldRuns, hnil, hstop, hmem]

theorem foldRuns_cons (sig : Sig) (run : List UInt8) (runs : List (List UInt8)) :
    foldRuns sig (run :: runs) = foldRuns (foldRuns sig [run]) runs := by
  simp only [foldRuns, List.filter_cons]
  by_cases hnil : run = []
  · simp [hnil]
  · by_cases hstop : normalize run ∈ stopwords <;> simp [hnil, hstop]

/-- The scan folds the words of the text, the one that is being read included. -/
theorem sigChar_foldl (text acc : List UInt8) (sig : Sig)
    (hacc : ∀ b ∈ acc, asciiAlnum b = true) :
    (sigChar (text.foldl sigChar ⟨normalize acc.reverse, sig⟩) 0).sig =
      foldRuns sig (List.splitOnPPrepend (fun c => !asciiAlnum c) text acc) := by
  induction text generalizing acc sig with
  | nil =>
    rw [List.foldl_nil, sigChar_separator (by decide) hacc]
    rfl
  | cons c text ih =>
    rw [List.foldl_cons]
    cases hc : asciiAlnum c with
    | true =>
      rw [normalize, sigChar_alnum hc, ← normalize_concat, ← List.reverse_cons,
        List.splitOnPPrepend_cons_neg (by simp [hc])]
      exact ih (c :: acc) sig (List.forall_mem_cons.mpr ⟨hc, hacc⟩)
    | false =>
      rw [sigChar_separator hc hacc, List.splitOnPPrepend_cons_pos (by simp [hc])]
      exact (ih [] _ (by simp)).trans (foldRuns_cons _ _ _).symm

/-- A signature folds the content words of the prompt, in the order of the text. -/
theorem cacheSig_eq (prompt : CString) :
    cacheSig prompt = ((wordsOf prompt.bytes).filter (· ∉ stopwords)).foldl sigFoldWord
      (List.Vector.replicate _ (0 - 1)) := by
  have hnot : (fun w => !stopwords.contains w) = fun w => decide (w ∉ stopwords) := by
    funext w
    simp
  rw [← hnot]
  exact sigChar_foldl prompt.bytes [] _ (by simp)

/-! ## The minimum -/

theorem get_sigFoldWord (sig : Sig) (word : List UInt8) (k : Fin cacheSigK) :
    (sigFoldWord sig word).get k =
      if wordHash k word < sig.get k then wordHash k word else sig.get k := by
  rw [sigFoldWord, List.Vector.get_ofFn]
  rfl

/-- A fold keeps the least of the start and the hashes. -/
theorem get_foldl_sigFoldWord (words : List (List UInt8)) (sig : Sig) (k : Fin cacheSigK) :
    ((words.foldl sigFoldWord sig).get k = sig.get k ∨
        ∃ w ∈ words, (words.foldl sigFoldWord sig).get k = wordHash k w) ∧
      (words.foldl sigFoldWord sig).get k ≤ sig.get k ∧
      ∀ w ∈ words, (words.foldl sigFoldWord sig).get k ≤ wordHash k w := by
  induction words generalizing sig with
  | nil => exact ⟨Or.inl rfl, UInt64.le_refl _, by simp⟩
  | cons word words ih =>
    obtain ⟨hfrom, hstart, hle⟩ := ih (sigFoldWord sig word)
    have hword := get_sigFoldWord sig word k
    rw [List.foldl_cons]
    refine ⟨?_, ?_, List.forall_mem_cons.mpr ⟨?_, hle⟩⟩
    · rcases hfrom with heq | ⟨w, hw, heq⟩
      · by_cases hlt : wordHash k word < sig.get k
        · exact Or.inr ⟨word, List.mem_cons_self, by rw [heq, hword, if_pos hlt]⟩
        · exact Or.inl (by rw [heq, hword, if_neg hlt])
      · exact Or.inr ⟨w, List.mem_cons_of_mem _ hw, heq⟩
    · grind
    · grind

/-- Every position of a signature is the least hash of a content word. -/
theorem cacheSig_isMinHash (prompt : CString) (k : Fin cacheSigK) :
    IsMinHash (contentWords prompt) k ((cacheSig prompt).get k) := by
  obtain ⟨hfrom, -, hle⟩ := get_foldl_sigFoldWord
    ((wordsOf prompt.bytes).filter (· ∉ stopwords)) (List.Vector.replicate _ (0 - 1)) k
  rw [← cacheSig_eq] at hfrom hle
  have hmem : ∀ w, w ∈ contentWords prompt ↔
      w ∈ (wordsOf prompt.bytes).filter (· ∉ stopwords) := by
    intro w
    simp [contentWords]
  by_cases hempty : contentWords prompt = ∅
  · refine Or.inl ⟨hempty, ?_⟩
    rcases hfrom with heq | ⟨w, hw, -⟩
    · rw [heq, List.Vector.get_replicate]
      rfl
    · rw [← hmem, hempty] at hw
      simp at hw
  · refine Or.inr ⟨?_, fun w hw => hle w ((hmem w).mp hw)⟩
    rcases hfrom with heq | ⟨w, hw, heq⟩
    · -- then every word has the largest hash
      obtain ⟨w, hw⟩ := Finset.nonempty_iff_ne_empty.mpr hempty
      refine ⟨w, hw, UInt64.le_antisymm (hle w ((hmem w).mp hw)) ?_⟩
      rw [heq, List.Vector.get_replicate]
      grind
    · exact ⟨w, (hmem w).mpr hw, heq⟩

/-- Prompts with the same content words have the same signature. -/
theorem cacheSig_congr {p q : CString} (h : contentWords p = contentWords q) :
    cacheSig p = cacheSig q := by
  apply List.Vector.ext
  intro k
  exact (cacheSig_isMinHash p k).unique (h ▸ cacheSig_isMinHash q k)

/-- The hash functions tell the words apart, and no word has the hash of the empty set. -/
def HashedApart (words : Finset (List UInt8)) : Prop :=
  ∀ k : Fin cacheSigK, (∀ w ∈ words, ∀ w' ∈ words, wordHash k w = wordHash k w' → w = w') ∧
    ∀ w ∈ words, wordHash k w ≠ 18446744073709551615

instance (words : Finset (List UInt8)) : Decidable (HashedApart words) :=
  inferInstanceAs (Decidable (∀ _ : Fin cacheSigK, _ ∧ _))

theorem get_cacheSig_of_wordless {p : CString} (h : contentWords p = ∅) (k : Fin cacheSigK) :
    (cacheSig p).get k = 18446744073709551615 := by
  rcases cacheSig_isMinHash p k with ⟨-, hmax⟩ | ⟨⟨w, hw, -⟩, -⟩
  · exact hmax
  · simp [h] at hw

/-- A prompt has the hash of the empty set only if it has no word. -/
theorem get_cacheSig_eq_max_iff {p : CString} (k : Fin cacheSigK)
    (hmax : ∀ w ∈ contentWords p, wordHash k w ≠ 18446744073709551615) :
    (cacheSig p).get k = 18446744073709551615 ↔ contentWords p = ∅ := by
  refine ⟨fun h => ?_, fun h => get_cacheSig_of_wordless h k⟩
  rcases cacheSig_isMinHash p k with ⟨hempty, -⟩ | ⟨⟨w, hw, heq⟩, -⟩
  · exact hempty
  · exact absurd (heq.symm.trans h) (hmax w hw)

/-- Signatures that agree in a position share a word, unless neither prompt has one. -/
theorem exists_common_word {p q : CString}
    (hapart : HashedApart (contentWords p ∪ contentWords q)) (hne : contentWords p ≠ ∅)
    {k : Fin cacheSigK} (h : (cacheSig p).get k = (cacheSig q).get k) :
    ∃ w ∈ contentWords p, w ∈ contentWords q := by
  obtain ⟨hinj, hmax⟩ := hapart k
  rcases cacheSig_isMinHash p k with ⟨hempty, -⟩ | ⟨⟨w, hw, heq⟩, -⟩
  · exact absurd hempty hne
  have hleft := Finset.mem_union_left (contentWords q) hw
  rcases cacheSig_isMinHash q k with ⟨-, hq⟩ | ⟨⟨w', hw', heq'⟩, -⟩
  · exact absurd (heq.symm.trans (h.trans hq)) (hmax w hleft)
  · have hright := Finset.mem_union_right (contentWords p) hw'
    obtain rfl := hinj w hleft w' hright (heq.symm.trans (h.trans heq'))
    exact ⟨w, hw, hw'⟩

end LiberalOS.Cache
