import Mathlib.Algebra.Order.Ring.Int
import Mathlib.Data.List.Basic

/-!
# Slapd.Approx

Approximate matching. A text is cut into words at the spaces, and each word stands for its phonetic code.
-/

namespace ReOpenLDAP
namespace Slapd

open List

def NUL : Char := Char.ofNat 0

def SLAPD_APPROX_DELIMITER : Char := ' '

def SLAPD_APPROX_WORDLEN : Nat := 1

def cStrings (buf : List Char) : List (List Char) := buf.splitOnP (· = NUL)

/-- The loop of `approxMatch` that counts the words: the buffer with a NUL for each delimiter, and the count. -/
def cutWords : List Char → List Char × Nat
  | [] => ([], 1)
  | c :: s =>
    if c = NUL then (c :: s, 1)
    else if c = SLAPD_APPROX_DELIMITER then
      let (buf, count) := cutWords s
      (NUL :: buf, count + 1)
    else
      let (buf, count) := cutWords s
      (c :: buf, count)

def wordCount (len : Nat) : Nat := if SLAPD_APPROX_WORDLEN ≤ len then 1 else 0

/-- The same loop of `approxIndexer` and `approxFilter`, which counts words that are long enough. The first `len`
characters of the current word are already scanned. -/
def isolateWords (len : Nat) : List Char → List Char × Nat
  | [] => ([], wordCount len)
  | c :: s =>
    if c = NUL then (c :: s, wordCount len)
    else if c = SLAPD_APPROX_DELIMITER then
      let (buf, count) := isolateWords 0 s
      (NUL :: buf, wordCount len + count)
    else
      let (buf, count) := isolateWords (len + 1) s
      (c :: buf, count)

/-- The words of an asserted value, which `approxMatch` finds by its length and not by its NUL. -/
def assertedChunks (assertv : List Char) : List (List Char) :=
  assertv.splitOnP fun c => c = NUL ∨ c = SLAPD_APPROX_DELIMITER

section

variable (norm : List Char → Option (List Char)) (phonetic : List Char → List Char)

/-- The first of `values` from `nextavail` on that is `val`: the index behind it. -/
def seekWord (values : List (List Char)) (nextavail : Nat) (val : List Char) : Option Nat :=
  ((values.drop nextavail).findIdx? (· = val)).map (nextavail + · + 1)

/-- The loop of `approxMatch` over the asserted words; the result is `nextavail`, `none` for -1. -/
def approxMatchLoop (values : List (List Char)) : Nat → List (List Char) → Option Nat
  | nextavail, [] => some nextavail
  | nextavail, chunk :: chunks =>
    if chunk.length = 0 then approxMatchLoop values nextavail chunks
    else
      match seekWord values nextavail (phonetic chunk) with
      | none => none
      | some nextavail => approxMatchLoop values nextavail chunks

/-- `approxMatch`; `norm` is `UTF8bvnormalize`. -/
def approxMatch (value asserted : List Char) : Bool :=
  match norm value, norm asserted with
  | some nval, some assertv =>
    let (buf, count) := cutWords nval
    let values := ((cStrings buf).take count).map phonetic
    match approxMatchLoop phonetic values 0 (assertedChunks assertv) with
    | some nextavail => 0 < nextavail
    | none => false
  | _, _ => false

/-- The second loop of `approxIndexer`: the keys of `wordcount` words. -/
def indexWords : Nat → List (List Char) → List (List Char)
  | 0, _ => []
  | _, [] => []
  | wordcount + 1, word :: words =>
    if word.length < SLAPD_APPROX_WORDLEN then indexWords (wordcount + 1) words
    else if (phonetic word).length ≠ 0 then phonetic word :: indexWords wordcount words
    else indexWords wordcount words

/-- `approxIndexer`; there is no result if its assertion fails. -/
def approxIndexer : List (List Char) → Option (List (List Char))
  | [] => some []
  | value :: values =>
    match norm value, approxIndexer values with
    | some val, some keys =>
      let (buf, wordcount) := isolateWords 0 val
      some (indexWords phonetic wordcount (cStrings buf) ++ keys)
    | _, _ => none

/-- The second loop of `approxFilter`. -/
def filterWords : Nat → List (List Char) → List (List Char)
  | 0, _ => []
  | _, [] => []
  | count + 1, word :: words =>
    if word.length < SLAPD_APPROX_WORDLEN then filterWords (count + 1) words
    else phonetic word :: filterWords count words

def approxFilter (asserted : List Char) : List (List Char) :=
  match norm asserted with
  | none => []
  | some val =>
    let (buf, count) := isolateWords 0 val
    filterWords phonetic count (cStrings buf)

end

def words (s : List Char) : List (List Char) := (s.takeWhile (· ≠ NUL)).splitOnP (· = SLAPD_APPROX_DELIMITER)

def LongWord (w : List Char) : Prop := SLAPD_APPROX_WORDLEN ≤ w.length

instance (w : List Char) : Decidable (LongWord w) := inferInstanceAs (Decidable (_ ≤ _))

theorem longWord_iff {w : List Char} : LongWord w ↔ w ≠ [] := length_pos_iff

theorem countP_longWord (w : List Char) (ws : List (List Char)) :
    (w :: ws).countP (LongWord ·) = wordCount w.length + ws.countP (LongWord ·) := by
  rw [countP_cons, Nat.add_comm]
  by_cases h : LongWord w
  · simp [h, wordCount, show SLAPD_APPROX_WORDLEN ≤ w.length from h]
  · simp [h, wordCount, show ¬ SLAPD_APPROX_WORDLEN ≤ w.length from h]

section

variable {c : Char} {s : List Char}

theorem words_nul : words (NUL :: s) = [[]] := by
  unfold words
  rw [takeWhile_cons_of_neg (by simp)]
  rfl

theorem words_delimiter : words (SLAPD_APPROX_DELIMITER :: s) = [] :: words s := by
  unfold words
  rw [takeWhile_cons_of_pos (by decide), splitOnP_cons_eq_if_modifyHead]
  simp

theorem words_char (hn : c ≠ NUL) (hd : c ≠ SLAPD_APPROX_DELIMITER) : words (c :: s) = (words s).modifyHead (c :: ·) := by
  unfold words
  rw [takeWhile_cons_of_pos (by simpa using hn), splitOnP_cons_eq_if_modifyHead]
  simp [hd]

theorem words_ne_nil (s : List Char) : words s ≠ [] := splitOnP_ne_nil _ _

theorem cStrings_nul : cStrings (NUL :: s) = [] :: cStrings s := by
  unfold cStrings
  rw [splitOnP_cons_eq_if_modifyHead]
  simp

theorem cStrings_char (hn : c ≠ NUL) : cStrings (c :: s) = (cStrings s).modifyHead (c :: ·) := by
  unfold cStrings
  rw [splitOnP_cons_eq_if_modifyHead]
  simp [hn]

theorem modifyHead_append {α : Type*} {f : α → α} {l m : List α} (h : l ≠ []) :
    (l ++ m).modifyHead f = l.modifyHead f ++ m := by
  cases l with
  | nil => exact absurd rfl h
  | cons a l => rfl

theorem cStrings_cutWords (s : List Char) : ∃ rest, cStrings (cutWords s).1 = words s ++ rest := by
  induction s with
  | nil => exact ⟨[], rfl⟩
  | cons c s ih =>
    obtain ⟨rest, hrest⟩ := ih
    unfold cutWords
    if hn : c = NUL then
      subst hn
      rw [if_pos rfl, words_nul]
      exact ⟨cStrings s, cStrings_nul⟩
    else if hd : c = SLAPD_APPROX_DELIMITER then
      subst hd
      rw [if_neg hn, if_pos rfl, words_delimiter]
      exact ⟨rest, by rw [cStrings_nul, hrest]; rfl⟩
    else
      rw [if_neg hn, if_neg hd, words_char hn hd]
      exact ⟨rest, by rw [cStrings_char hn, hrest, modifyHead_append (words_ne_nil s)]⟩

theorem isolateWords_buf (len : Nat) (s : List Char) : (isolateWords len s).1 = (cutWords s).1 := by
  induction s generalizing len with
  | nil => rfl
  | cons c s ih =>
    unfold isolateWords cutWords
    split_ifs
    · rfl
    · exact congrArg (NUL :: ·) (ih 0)
    · exact congrArg (c :: ·) (ih (len + 1))

theorem cStrings_isolateWords (len : Nat) (s : List Char) : ∃ rest, cStrings (isolateWords len s).1 = words s ++ rest :=
  isolateWords_buf len s ▸ cStrings_cutWords s

theorem length_modifyHead {α : Type*} {f : α → α} {l : List α} : (l.modifyHead f).length = l.length := by
  cases l <;> rfl

theorem cutWords_count (s : List Char) : (cutWords s).2 = (words s).length := by
  induction s with
  | nil => rfl
  | cons c s ih =>
    unfold cutWords
    if hn : c = NUL then
      subst hn
      rw [if_pos rfl, words_nul]
      rfl
    else if hd : c = SLAPD_APPROX_DELIMITER then
      subst hd
      rw [if_neg hn, if_pos rfl, words_delimiter, length_cons, ← ih]
    else
      rw [if_neg hn, if_neg hd, words_char hn hd, length_modifyHead, ← ih]

theorem isolateWords_count (len : Nat) (s : List Char) {w : List Char} {ws : List (List Char)} (h : words s = w :: ws) :
    (isolateWords len s).2 = wordCount (len + w.length) + ws.countP (LongWord ·) := by
  induction s generalizing len w ws with
  | nil =>
    cases h
    rfl
  | cons c s ih =>
    unfold isolateWords
    if hn : c = NUL then
      subst hn
      rw [words_nul] at h
      cases h
      rw [if_pos rfl]
      rfl
    else if hd : c = SLAPD_APPROX_DELIMITER then
      subst hd
      rw [words_delimiter] at h
      obtain ⟨v, vs, hv⟩ := exists_cons_of_ne_nil (words_ne_nil s)
      rw [hv] at h
      cases h
      rw [if_neg hn, if_pos rfl]
      simp only [ih 0 hv, countP_longWord, length_nil, Nat.zero_add, Nat.add_zero]
    else
      rw [words_char hn hd] at h
      obtain ⟨v, vs, hv⟩ := exists_cons_of_ne_nil (words_ne_nil s)
      rw [hv] at h
      cases h
      rw [if_neg hn, if_neg hd]
      simp only [ih (len + 1) hv, length_cons]
      rw [Nat.add_right_comm, Nat.add_assoc]

theorem isolateWords_longCount (s : List Char) : (isolateWords 0 s).2 = (words s).countP (LongWord ·) := by
  obtain ⟨w, ws, h⟩ := exists_cons_of_ne_nil (words_ne_nil s)
  rw [isolateWords_count 0 s h, h, countP_longWord, Nat.zero_add]

theorem words_prefix_chunks (s : List Char) : words s <+: assertedChunks s := by
  induction s with
  | nil => exact prefix_rfl
  | cons c s ih =>
    obtain ⟨rest, hrest⟩ := ih
    unfold assertedChunks at hrest ⊢
    rw [splitOnP_cons_eq_if_modifyHead]
    if hn : c = NUL then
      subst hn
      rw [words_nul]
      exact ⟨_, rfl⟩
    else if hd : c = SLAPD_APPROX_DELIMITER then
      subst hd
      rw [words_delimiter, ← hrest]
      exact ⟨rest, rfl⟩
    else
      rw [words_char hn hd, ← hrest]
      simp only [hn, hd, or_self, decide_false, Bool.false_eq_true, if_false]
      rw [modifyHead_append (words_ne_nil s)]
      exact ⟨rest, rfl⟩

end

/-! ## Keys -/

section

variable {norm : List Char → Option (List Char)} {phonetic : List Char → List Char} {s : List Char}

@[simp] theorem filterWords_zero (ws : List (List Char)) : filterWords phonetic 0 ws = [] := by cases ws <;> rfl

theorem filterWords_eq (ws rest : List (List Char)) :
    filterWords phonetic (ws.countP (LongWord ·)) (ws ++ rest) = (ws.filter (LongWord ·)).map phonetic := by
  induction ws with
  | nil => exact filterWords_zero _
  | cons w ws ih =>
    if hw : LongWord w then
      rw [countP_cons_of_pos (by simpa using hw), filter_cons_of_pos (by simpa using hw), cons_append,
        filterWords, if_neg (Nat.not_lt.mpr hw), ih]
      rfl
    else
      rw [countP_cons_of_neg (by simpa using hw), filter_cons_of_neg (by simpa using hw), ← ih]
      cases hc : ws.countP (LongWord ·) with
      | zero => rw [filterWords_zero, filterWords_zero]
      | succ n => rw [cons_append, filterWords, if_pos (Nat.not_le.mp hw)]

theorem indexWords_eq (n : Nat) (ws : List (List Char)) :
    indexWords phonetic n ws = (filterWords phonetic n ws).filter (· ≠ []) := by
  induction ws generalizing n with
  | nil => cases n <;> rfl
  | cons w ws ih =>
    cases n with
    | zero => rfl
    | succ n =>
      rw [indexWords, filterWords]
      split_ifs with hlen hcode
      · exact ih (n + 1)
      · rw [filter_cons_of_pos (by simpa [length_eq_zero_iff] using hcode), ih]
      · rw [filter_cons_of_neg (by simpa [length_eq_zero_iff] using hcode), ih]

theorem mem_longCodes {k : List Char} :
    k ∈ ((words s).filter (LongWord ·)).map phonetic ↔ ∃ w ∈ words s, w ≠ [] ∧ phonetic w = k := by
  simp [List.mem_map, longWord_iff, and_assoc]

theorem mem_approxFilter {asserted k : List Char} (h : norm asserted = some s) :
    k ∈ approxFilter norm phonetic asserted ↔ ∃ w ∈ words s, w ≠ [] ∧ phonetic w = k := by
  unfold approxFilter
  obtain ⟨rest, hrest⟩ := cStrings_isolateWords 0 s
  simp only [h]
  rw [hrest, isolateWords_longCount, filterWords_eq, mem_longCodes]

theorem mem_approxIndexer {values keys : List (List Char)} (h : approxIndexer norm phonetic values = some keys)
    {k : List Char} :
    k ∈ keys ↔ k ≠ [] ∧ ∃ value ∈ values, ∃ val, norm value = some val ∧ ∃ w ∈ words val, w ≠ [] ∧ phonetic w = k := by
  induction values generalizing keys with
  | nil =>
    cases h
    simp
  | cons value values ih =>
    unfold approxIndexer at h
    cases hval : norm value with
    | none => simp [hval] at h
    | some val =>
      cases hkeys : approxIndexer norm phonetic values with
      | none => simp [hval, hkeys] at h
      | some more =>
        simp only [hval, hkeys, Option.some.injEq] at h
        obtain ⟨rest, hrest⟩ := cStrings_isolateWords 0 val
        rw [hrest, isolateWords_longCount, indexWords_eq, filterWords_eq] at h
        rw [← h, mem_append, mem_filter, mem_longCodes, ih hkeys]
        rw [decide_eq_true_eq, and_comm, ← and_or_left]
        simp only [mem_cons, exists_eq_or_imp, hval, Option.some.injEq, exists_eq_left']

theorem mem_of_seekWord {values : List (List Char)} {avail next : Nat} {val : List Char}
    (h : seekWord values avail val = some next) : val ∈ values := by
  obtain ⟨i, hi, -⟩ := Option.map_eq_some_iff.mp h
  obtain ⟨hlt, heq, -⟩ := List.findIdx?_eq_some_iff_getElem.mp hi
  have hval : (values.drop avail)[i] = val := by simpa using heq
  exact mem_of_mem_drop (hval ▸ getElem_mem hlt)

theorem mem_of_approxMatchLoop {values chunks : List (List Char)} {avail last : Nat}
    (h : approxMatchLoop phonetic values avail chunks = some last) : ∀ w ∈ chunks, w ≠ [] → phonetic w ∈ values := by
  induction chunks generalizing avail with
  | nil => simp
  | cons chunk chunks ih =>
    unfold approxMatchLoop at h
    intro w hw hne
    if hlen : chunk.length = 0 then
      rw [if_pos hlen] at h
      rcases List.mem_cons.mp hw with rfl | hw
      · exact absurd (List.length_eq_zero_iff.mp hlen) hne
      · exact ih h w hw hne
    else
      rw [if_neg hlen] at h
      cases hseek : seekWord values avail (phonetic chunk) with
      | none => simp [hseek] at h
      | some next =>
        simp only [hseek] at h
        rcases List.mem_cons.mp hw with rfl | hw
        · exact mem_of_seekWord hseek
        · exact ih h w hw hne

theorem approxMatch_words {value asserted : List Char} (h : approxMatch norm phonetic value asserted = true) :
    ∃ nval assertv, norm value = some nval ∧ norm asserted = some assertv ∧
      ∀ w ∈ words assertv, w ≠ [] → ∃ v ∈ words nval, phonetic v = phonetic w := by
  unfold approxMatch at h
  cases hv : norm value with
  | none => simp [hv] at h
  | some nval =>
    cases ha : norm asserted with
    | none => simp [hv, ha] at h
    | some assertv =>
      refine ⟨nval, assertv, rfl, rfl, ?_⟩
      simp only [hv, ha] at h
      obtain ⟨rest, hrest⟩ := cStrings_cutWords nval
      rw [hrest, cutWords_count, take_left] at h
      split at h
      next last hloop =>
        intro w hw hne
        have hmem := mem_of_approxMatchLoop hloop w ((words_prefix_chunks assertv).subset hw) hne
        simpa [List.mem_map] using hmem
      next => cases h

def CodesLetters (phonetic : List Char → List Char) : Prop := ∀ w, (∀ c ∈ w, c.isAlpha = false) → phonetic w = []

/-- A match is found through the index exactly if each word of the assertion has a code. -/
theorem approx_keys_complete_iff {value asserted assertv : List Char} {values keys : List (List Char)}
    (hphon : CodesLetters phonetic) (hm : approxMatch norm phonetic value asserted = true)
    (hi : approxIndexer norm phonetic values = some keys) (hv : value ∈ values) (ha : norm asserted = some assertv) :
    (∀ k ∈ approxFilter norm phonetic asserted, k ∈ keys) ↔ ∀ w ∈ words assertv, w ≠ [] → phonetic w ≠ [] := by
  constructor
  · intro hall w hw hne
    exact ((mem_approxIndexer hi).mp (hall _ ((mem_approxFilter ha).mpr ⟨w, hw, hne, rfl⟩))).1
  · intro hcodes k hk
    obtain ⟨w, hw, hne, rfl⟩ := (mem_approxFilter ha).mp hk
    obtain ⟨nval, assertv', hnval, hassertv, hwords⟩ := approxMatch_words hm
    obtain rfl := Option.some.inj (ha.symm.trans hassertv)
    obtain ⟨v, hvw, hcode⟩ := hwords w hw hne
    refine (mem_approxIndexer hi).mpr ⟨hcodes w hw hne, value, hv, nval, hnval, v, hvw, ?_, hcode⟩
    rintro rfl
    -- the empty word has no code
    exact hcodes w hw hne (hcode ▸ hphon [] (by simp))

end

def lettersOf (w : List Char) : List Char := w.filter Char.isAlpha

theorem lettersOf_codesLetters : CodesLetters lettersOf := by
  intro w hw
  rw [lettersOf, filter_eq_nil_iff]
  intro c hc
  simp [hw c hc]

theorem approx_keys_complete_route : approxFilter some lettersOf "route".toList ⊆ ["old".toList, "route".toList] :=
  (approx_keys_complete_iff lettersOf_codesLetters
    (show approxMatch some lettersOf "old route 66".toList "route".toList = true by decide)
    (show approxIndexer some lettersOf ["old route 66".toList] = some _ by decide) (mem_singleton_self _) rfl).mpr
    (by decide)

/-- A number matches, and its key is not in the index. -/
theorem approx_number_not_indexed :
    ¬ ∀ (phonetic : List Char → List Char), CodesLetters phonetic → ∀ value asserted keys,
      approxMatch some phonetic value asserted = true → approxIndexer some phonetic [value] = some keys →
        ∀ k ∈ approxFilter some phonetic asserted, k ∈ keys := by
  intro h
  have hmem := h lettersOf lettersOf_codesLetters "route 66".toList "route 66".toList ["route".toList] (by decide)
    (by decide) [] (by decide)
  revert hmem
  decide

end Slapd
end ReOpenLDAP
