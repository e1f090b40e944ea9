import ReOpenLDAP.Libreldap.LdifLine

/-!
# Libreldap.LdifSpace

The bytes that `ldif_sput_wrap` writes to, and the block of `ldif_put_wrap`.
-/

namespace ReOpenLDAP
namespace Libreldap

open Ascii List

def plainEnds (registered : List MustB64Encode) (name val : List Octet) : Bool :=
  match val.head?, val.getLast? with
  | some first, some last =>
    isGraph first && first ≠ COLON && first ≠ LESS && isGraph last && !decide (Ascii.text ";binary" <:+: name) &&
      !ldifMustB64Encode registered name
  | _, _ => false

/-- The text in front of `*out`, and the longer one that was there before it was set back. -/
structure Written where
  text : List Octet
  undone : List Octet
deriving DecidableEq

def Written.extent (w : Written) : ℕ := max w.text.length w.undone.length

/-- The name with its `:`; none if `namelen`, an `int`, is negative, which `memcpy` takes for a huge length. -/
def sputName (type : Put) : Option (List Octet) → Option (List Octet)
  | none => some []
  | some name => (intLength name).map fun s => if type = .comment then s else s ++ [COLON]

def sputBase64 (out val : List Octet) (wrap : ℕ) : List Octet :=
  out ++ COLON :: SP :: fold wrap (out.length + 2) (encodeB64 val) ++ [NL]

/-- The value behind `out`, the prefix and the name. -/
def sputValue (registered : List MustB64Encode) (type : Put) (name out val : List Octet) (wrap : ℕ) : Written :=
  if val = [] then ⟨out ++ [NL], []⟩
  else
    match type with
    | .novalue => ⟨out ++ [NL], []⟩
    | .url => ⟨out ++ LESS :: SP :: foldText wrap (out.length + 2) val ++ [NL], []⟩
    | .b64 => ⟨out ++ COLON :: SP :: foldText wrap (out.length + 2) val ++ [NL], []⟩
    | .text => ⟨out ++ SP :: foldText wrap (out.length + 1) val ++ [NL], []⟩
    | .comment => ⟨out ++ foldText wrap out.length val ++ [NL], []⟩
    | type =>
      if type = .value ∧ plainEnds registered name val then
        if val.all isPrint then ⟨out ++ SP :: fold wrap (out.length + 1) val ++ [NL], []⟩
        else ⟨sputBase64 out val wrap, out ++ SP :: fold wrap (out.length + 1) (val.takeWhile isPrint)⟩
      else ⟨sputBase64 out val wrap, out ++ [SP]⟩

/-- `ldif_sput_wrap`, with what is written and then taken back. -/
def sputWrap (registered : List MustB64Encode) (type : Put) (name : Option (List Octet)) (val : List Octet) (wrap : ℕ) :
    Option Written :=
  let comment := if type = .comment then HASH :: (if val = [] then [] else [SP]) else []
  if type = .sep then some ⟨[NL], []⟩
  else (sputName type name).map fun s => sputValue registered type (name.getD []) (comment ++ s) val (width wrap)

/-- The marks of continued lines in a text of `n` characters that starts at `len`. -/
def folds (wrap len n : ℕ) : ℕ := (n - (wrap - len) + (max 1 (wrap - 1) - 1)) / max 1 (wrap - 1)

theorem length_fold {wrap : ℕ} (hwrap : 0 < wrap) (len : ℕ) (cs : List Octet) :
    (fold wrap len cs).length = cs.length + folds wrap len cs.length * 2 := by
  have hpos : 0 < max 1 (wrap - 1) := by omega
  induction cs generalizing len with
  | nil =>
    have hnone : folds wrap len 0 = 0 := by
      unfold folds
      exact Nat.div_eq_of_lt (by omega)
    simp [fold, hnone]
  | cons c cs ih =>
    rw [fold]
    split
    · rename_i hfull
      -- behind the mark there is a whole line again
      have hone : folds wrap len (cs.length + 1) = folds wrap 2 cs.length + 1 := by
        unfold folds
        rw [← Nat.add_div_right _ hpos]
        by_cases hline : cs.length ≤ max 1 (wrap - 1) - 1
        · rw [Nat.div_eq_of_lt_le (k := 1) (by omega) (by omega), Nat.div_eq_of_lt_le (k := 1) (by omega) (by omega)]
        · congr 1
          omega
      simp only [length_cons, ih, hone]
      omega
    · rename_i hfree
      have hsame : folds wrap len (cs.length + 1) = folds wrap (len + 1) cs.length := by
        unfold folds
        congr 2
        omega
      simp only [length_cons, ih, hsame]
      omega

theorem foldText_eq (wrap len : ℕ) (cs : List Octet) : foldText wrap len cs = fold (wrap + 1) len cs := by
  induction cs generalizing len with
  | nil => rfl
  | cons c cs ih =>
    rw [foldText, fold]
    simp only [Nat.succ_le_iff, ih]

theorem folds_mono {wrap len len' n n' : ℕ} (hlen : len ≤ len') (hn : n ≤ n') : folds wrap len n ≤ folds wrap len' n' :=
  Nat.div_le_div_right (by omega)

theorem folds_le {wrap : ℕ} (hwrap : 1 < wrap) (len n : ℕ) : folds wrap len n ≤ (len + n) / (wrap - 1) := by
  have hmax : max 1 (wrap - 1) = wrap - 1 := by omega
  unfold folds
  rw [hmax]
  by_cases hline : n ≤ wrap - len
  · rw [Nat.div_eq_of_lt (by omega)]
    exact Nat.zero_le _
  · exact Nat.div_le_div_right (by omega)

theorem width_pos (wrap : ℕ) : 0 < width wrap := by
  unfold width LDIF_LINE_WIDTH LDIF_KLUDGE
  split <;> omega

section

variable {registered : List MustB64Encode} {type : Put} {name : Option (List Octet)} {nm val : List Octet} {wrap : ℕ} {w : Written}

theorem length_encodeB64_ge (val : List Octet) : val.length ≤ (encodeB64 val).length := by
  rw [length_encodeB64]
  omega

theorem Written.extent_eq {a b : List Octet} (h : a.length ≤ b.length) : Written.extent ⟨b, a⟩ = b.length := max_eq_left h

theorem extent_sputValue (hwrap : 0 < wrap) (out : List Octet) :
    (sputValue registered type nm out val wrap).extent = (sputValue registered type nm out val wrap).text.length := by
  have hnil : ∀ text : List Octet, Written.extent ⟨text, []⟩ = text.length := fun _ => Written.extent_eq (Nat.zero_le _)
  fun_cases sputValue registered type nm out val wrap
  case case8 =>
    -- the text before the first byte that is not printable
    refine Written.extent_eq ?_
    have hpre : (val.takeWhile isPrint).length ≤ (encodeB64 val).length :=
      (List.takeWhile_prefix _).length_le.trans (length_encodeB64_ge val)
    have hmarks := @folds_mono wrap _ _ _ _ (show out.length + 1 ≤ out.length + 2 by omega) hpre
    simp only [sputBase64, length_append, length_cons, length_nil, length_fold hwrap]
    omega
  case case9 =>
    refine Written.extent_eq ?_
    simp only [sputBase64, length_append, length_cons, length_nil]
    omega
  all_goals exact hnil _

theorem extent_sput (h : sputWrap registered type name val wrap = some w) : w.extent = w.text.length := by
  rw [sputWrap] at h
  split at h
  · obtain rfl := Option.some.inj h
    rfl
  · obtain ⟨s, -, rfl⟩ := Option.map_eq_some_iff.mp h
    exact extent_sputValue (width_pos wrap) _

theorem length_folded_le (hwrap : 1 < wrap) {len len' n' : ℕ} (cs : List Octet) (hlen : len ≤ len') (hn : cs.length ≤ n') :
    len + (fold wrap len cs).length + 1 ≤ len' + n' + (len' + n') / (wrap - 1) * 2 + 1 := by
  have hmarks := folds_le hwrap len cs.length
  have hmono : (len + cs.length) / (wrap - 1) ≤ (len' + n') / (wrap - 1) := Nat.div_le_div_right (by omega)
  rw [length_fold (by omega)]
  omega

theorem length_foldedText_le (hwrap : 1 < wrap) {len len' n' : ℕ} (cs : List Octet) (hlen : len ≤ len') (hn : cs.length ≤ n') :
    len + (foldText wrap len cs).length + 1 ≤ len' + n' + (len' + n') / (wrap - 1) * 2 + 1 := by
  have hwide := length_folded_le (show 1 < wrap + 1 by omega) cs hlen hn
  have hdiv : (len' + n') / (wrap + 1 - 1) ≤ (len' + n') / (wrap - 1) := Nat.div_le_div_left (by omega) (by omega)
  rw [foldText_eq]
  omega

theorem length_sputValue (hwrap : 1 < wrap) {n : ℕ} (out : List Octet)
    (hout : out.length ≤ n + 1 ∨ type = .comment ∧ out.length ≤ n + 2) :
    (sputValue registered type nm out val wrap).text.length ≤
      n + 3 + LDIF_BASE64_LEN val.length + (n + 3 + LDIF_BASE64_LEN val.length) / (wrap - 1) * 2 + 1 := by
  have hval : val.length ≤ LDIF_BASE64_LEN val.length := by
    rw [LDIF_BASE64_LEN]
    omega
  have hchars : (encodeB64 val).length ≤ LDIF_BASE64_LEN val.length := by
    rw [LDIF_BASE64_LEN, length_encodeB64]
    omega
  have hother : type ≠ .comment → out.length ≤ n + 1 := fun hne => hout.resolve_right fun h => hne h.1
  fun_cases sputValue registered type nm out val wrap
  case case1 | case2 =>
    simp only [length_append, length_cons, length_nil]
    omega
  case case3 | case4 =>
    have := length_foldedText_le hwrap val (show out.length + 2 ≤ n + 3 by have := hother (by decide); omega) hval
    simp only [length_append, length_cons, length_nil]
    omega
  case case5 =>
    have := length_foldedText_le hwrap val (show out.length + 1 ≤ n + 3 by have := hother (by decide); omega) hval
    simp only [length_append, length_cons, length_nil]
    omega
  case case6 =>
    have := length_foldedText_le hwrap val (show out.length ≤ n + 3 by omega) hval
    simp only [length_append, length_cons, length_nil]
    omega
  case case7 =>
    have := length_folded_le hwrap val (show out.length + 1 ≤ n + 3 by have := hother (by assumption); omega) hval
    simp only [length_append, length_cons, length_nil]
    omega
  all_goals
    have := length_folded_le hwrap (encodeB64 val) (show out.length + 2 ≤ n + 3 by have := hother (by assumption); omega) hchars
    simp only [sputBase64, length_append, length_cons, length_nil]
    omega

/-! ## The line for a value -/

/-- The length of the line for a value of `vlen` bytes; it is `plain` or in base 64. -/
def lineLength (wrap nlen vlen : ℕ) (plain : Bool) : ℕ :=
  if vlen = 0 then nlen + 2
  else
    let mark := if plain then 1 else 2
    let chars := if plain then vlen else (vlen + 2) / 3 * 4
    nlen + 1 + mark + chars + folds (width wrap) (nlen + 1 + mark) chars * 2 + 1

theorem plainValue_eq (registered : List MustB64Encode) (name val : List Octet) :
    plainValue registered name val = (plainEnds registered name val && val.all isPrint) := by
  rw [plainValue, plainEnds]
  cases val.head? with
  | none => rfl
  | some first =>
    cases val.getLast? with
    | none => rfl
    | some last => rfl

theorem sputWrap_value (registered : List MustB64Encode) (name val : List Octet) (wrap : ℕ) (h : name.length < 2 ^ 31) :
    ∃ undone, sputWrap registered .value (some name) val wrap =
      some ⟨ldifSputWrap registered .value (some name) val wrap, undone⟩ := by
  have hname : sputName .value (some name) = some (name ++ [COLON]) := by
    rw [sputName, intLength_eq h]
    rfl
  have hcond := plainValue_eq registered name val
  rw [sputWrap, hname]
  by_cases hval : val = []
  · exact ⟨[], by simp [ldifSputWrap, sputValue, hval]⟩
  cases hends : plainEnds registered name val with
  | false => exact ⟨name ++ [COLON, SP], by simp [ldifSputWrap, sputValue, hval, hcond, hends, width, sputBase64]⟩
  | true =>
    cases hprint : val.all isPrint with
    | true => exact ⟨[], by simp [ldifSputWrap, sputValue, hval, hcond, hends, hprint, width]⟩
    | false =>
      refine ⟨name ++ COLON :: SP :: fold (width wrap) (name.length + 1 + 1) (val.takeWhile isPrint), ?_⟩
      simp [sputValue, ldifSputWrap, hval, hcond, hends, hprint, width, sputBase64]

theorem length_sputWrap_value (registered : List MustB64Encode) (name val : List Octet) (wrap : ℕ) :
    (ldifSputWrap registered .value (some name) val wrap).length =
      lineLength wrap name.length val.length (plainValue registered name val) := by
  by_cases hval : val = []
  · simp [ldifSputWrap, hval, lineLength]
  have hlen : val.length ≠ 0 := fun h => hval (eq_nil_of_length_eq_zero h)
  have hwidth : (if wrap = 0 then LDIF_LINE_WIDTH + LDIF_KLUDGE else wrap) = width wrap := rfl
  cases hplain : plainValue registered name val with
  | true =>
    simp [ldifSputWrap, hval, hplain, lineLength, hlen, hwidth, length_fold (width_pos wrap)]
    omega
  | false =>
    simp [ldifSputWrap, hval, hplain, lineLength, hlen, hwidth, length_fold (width_pos wrap), length_encodeB64]
    omega

theorem lineLength_le_of_wide (hwide : wrap = 0 ∨ LDIF_LINE_WIDTH ≤ wrap) (n v : ℕ) (plain : Bool) :
    lineLength wrap n v plain ≤ LDIF_SIZE_NEEDED n v := by
  have hwidth : 76 ≤ width wrap := by
    unfold width LDIF_KLUDGE LDIF_LINE_WIDTH at *
    split <;> omega
  unfold lineLength LDIF_SIZE_NEEDED LDIF_BASE64_LEN LDIF_LINE_WIDTH
  split
  · omega
  · have hmarks : ∀ len chars, len + chars ≤ v * 4 / 3 + 3 + n + 3 →
        folds (width wrap) len chars ≤ (v * 4 / 3 + 3 + n + 3) / (76 - 1) := fun len chars h =>
      (folds_le (by omega) len chars).trans ((Nat.div_le_div_right h).trans (Nat.div_le_div_left (by omega) (by omega)))
    cases plain with
    | true =>
      have := hmarks (n + 1 + 1) v (by omega)
      simp only [if_true]
      omega
    | false =>
      have := hmarks (n + 1 + 2) ((v + 2) / 3 * 4) (by omega)
      simp only [Bool.false_eq_true, if_false]
      omega

def LDIF_LINE_WIDTH_MAX : ℕ := 2 ^ 64 - 1

/-- The marks of continued lines for a `line` of this length; none for a division by zero. -/
def marksNeeded (line wrap : ℕ) : Option ℕ :=
  if wrap = 0 then some (line / (LDIF_LINE_WIDTH - 1) * 2)
  else if wrap = LDIF_LINE_WIDTH_MAX then some 0
  else if wrap - 1 = 0 then none
  else some (line / (wrap - 1) * 2)

/-- In `ber_len_t`. -/
def LDIF_SIZE_NEEDED_WRAP (nlen vlen wrap : ℕ) : Option ℕ :=
  let base64 := vlen * 4 % 2 ^ 64 / 3 + 3
  (marksNeeded ((base64 + nlen + 3) % 2 ^ 64) wrap).map fun marks => (nlen + 4 + base64 + marks) % 2 ^ 64

structure Str where
  bytes : List Octet
  in_memory : bytes.length < 2 ^ 57

inductive Fault where
  | divisionByZero
  | outside
deriving DecidableEq

/-- `ldif_put_wrap`: the string in the block, if all writes are inside. -/
def ldifPutWrap (registered : List MustB64Encode) (type : Put) (name : Option Str) (val : Str) (wrap : UInt64) :
    Except Fault (List Octet) :=
  let nlen := (name.map fun s => s.bytes.length).getD 0
  match LDIF_SIZE_NEEDED_WRAP nlen val.bytes.length wrap.toNat with
  | none => .error .divisionByZero
  | some size =>
    match sputWrap registered type (name.map Str.bytes) val.bytes wrap.toNat with
    | none => .error .outside
    | some w => if max w.extent (w.text.length + 1) ≤ (size + 1) % 2 ^ 64 then .ok w.text else .error .outside

theorem marksNeeded_spec {line wrap : ℕ} (hline : line < 2 ^ 59) (hone : wrap ≠ 1) :
    ∃ marks, marksNeeded line wrap = some marks ∧ line / (width wrap - 1) * 2 ≤ marks ∧ marks < 2 ^ 60 := by
  have hdiv : ∀ k, line / k < 2 ^ 59 := fun k => (Nat.div_le_self _ k).trans_lt hline
  by_cases hzero : wrap = 0
  · have := hdiv 75
    have hwider : line / (width wrap - 1) ≤ line / 75 := by
      rw [hzero]
      exact Nat.div_le_div_left (by decide) (by decide)
    refine ⟨line / 75 * 2, ?_, by omega, by omega⟩
    rw [marksNeeded, if_pos hzero]
    rfl
  have hwidth : width wrap = wrap := if_neg hzero
  rw [hwidth]
  by_cases hmax : wrap = LDIF_LINE_WIDTH_MAX
  · refine ⟨0, ?_, ?_, by omega⟩
    · rw [marksNeeded, if_neg hzero, if_pos hmax]
    · rw [hmax, LDIF_LINE_WIDTH_MAX, Nat.div_eq_of_lt (by omega)]
  · have := hdiv (wrap - 1)
    refine ⟨line / (wrap - 1) * 2, ?_, le_refl _, by omega⟩
    rw [marksNeeded, if_neg hzero, if_neg hmax, if_neg (by omega)]

theorem sizeNeededWrap_spec {n v wrap : ℕ} (hn : n < 2 ^ 57) (hv : v < 2 ^ 57) (hone : wrap ≠ 1) :
    ∃ size, LDIF_SIZE_NEEDED_WRAP n v wrap = some size ∧ size + 1 < 2 ^ 64 ∧
      n + 3 + LDIF_BASE64_LEN v + (n + 3 + LDIF_BASE64_LEN v) / (width wrap - 1) * 2 + 1 ≤ size := by
  have hquad : v * 4 % 2 ^ 64 = v * 4 := Nat.mod_eq_of_lt (by omega)
  have hbase64 : v * 4 / 3 + 3 = LDIF_BASE64_LEN v := rfl
  have hlt : LDIF_BASE64_LEN v < 2 ^ 58 := by
    rw [LDIF_BASE64_LEN]
    omega
  have hline : (LDIF_BASE64_LEN v + n + 3) % 2 ^ 64 = n + 3 + LDIF_BASE64_LEN v := by
    rw [Nat.mod_eq_of_lt (by omega)]
    omega
  obtain ⟨marks, hmarks, hle, hbound⟩ := marksNeeded_spec (show n + 3 + LDIF_BASE64_LEN v < 2 ^ 59 by omega) hone
  refine ⟨n + 4 + LDIF_BASE64_LEN v + marks, ?_, by omega, by omega⟩
  rw [LDIF_SIZE_NEEDED_WRAP, hquad, hbase64, hline, hmarks, Option.map_some, Nat.mod_eq_of_lt (by omega)]

theorem castInt_le (n : ℕ) : castInt n ≤ n := by
  unfold castInt
  rw [Int.bmod_def]
  split <;> omega

theorem sputName_spec (type : Put) (name : Option (List Octet)) :
    ((∀ s ∈ name, 0 ≤ castInt s.length) → ∃ s, sputName type name = some s ∧
      s.length ≤ (name.getD []).length + if type = .comment then 0 else 1) ∧
    (¬ (∀ s ∈ name, 0 ≤ castInt s.length) → sputName type name = none) := by
  cases name with
  | none => exact ⟨fun _ => ⟨[], rfl, Nat.zero_le _⟩, fun h => absurd (by simp) h⟩
  | some name =>
    have hle := castInt_le name.length
    simp only [Option.mem_def, Option.some.injEq, forall_eq', sputName, intLength, Option.getD_some]
    constructor
    · intro hpos
      rw [if_pos ⟨hpos, hle⟩]
      refine ⟨_, rfl, ?_⟩
      have htake : (name.take (castInt name.length).toNat).length ≤ name.length := length_take_le' _ _
      split
      · exact htake
      · simp only [length_append, length_cons, length_nil]
        omega
    · intro hneg
      rw [if_neg fun h => hneg h.1]
      rfl

theorem length_sputWrap (hwrap : wrap ≠ 1) (h : sputWrap registered type name val wrap = some w) :
    w.text.length ≤ (name.getD []).length + 3 + LDIF_BASE64_LEN val.length +
      ((name.getD []).length + 3 + LDIF_BASE64_LEN val.length) / (width wrap - 1) * 2 + 1 := by
  rw [sputWrap] at h
  split at h
  · obtain rfl := Option.some.inj h
    simp only [length_cons, length_nil]
    omega
  · obtain ⟨s, hs, rfl⟩ := Option.map_eq_some_iff.mp h
    have hwidth : 1 < width wrap := by
      unfold width LDIF_LINE_WIDTH LDIF_KLUDGE
      split <;> omega
    obtain ⟨s', hs', hlen⟩ := (sputName_spec type name).1 (by
      by_contra hneg
      rw [(sputName_spec type name).2 hneg] at hs
      cases hs)
    obtain rfl : s' = s := Option.some.inj (hs'.symm.trans hs)
    refine length_sputValue hwidth _ ?_
    by_cases hcomment : type = .comment
    · refine .inr ⟨hcomment, ?_⟩
      rw [if_pos hcomment] at hlen ⊢
      split <;> simp only [length_append, length_cons, length_nil] <;> omega
    · rw [if_neg hcomment] at hlen ⊢
      exact .inl hlen

theorem Except.isOk_ite {ε α : Type*} {p : Prop} [Decidable p] {a : α} {e : ε} :
    (if p then Except.ok a else Except.error e).isOk = true ↔ p := by
  split <;> simp_all [Except.isOk, Except.toBool]

theorem sputWrap_isSome (registered : List MustB64Encode) (type : Put) (name : Option (List Octet)) (val : List Octet)
    (wrap : ℕ) : (sputWrap registered type name val wrap).isSome = true ↔
      type = .sep ∨ ∀ s ∈ name, 0 ≤ castInt s.length := by
  obtain ⟨hok, hbad⟩ := sputName_spec type name
  rw [sputWrap]
  by_cases hsep : type = .sep
  · simp [hsep]
  by_cases hname : ∀ s ∈ name, 0 ≤ castInt s.length
  · obtain ⟨s, hs, -⟩ := hok hname
    simpa [hsep, hs] using hname
  · simpa [hsep, hbad hname] using hname

theorem ldifPutWrap_isOk (registered : List MustB64Encode) (type : Put) (name : Option Str) (val : Str) (wrap : UInt64) :
    (ldifPutWrap registered type name val wrap).isOk = true ↔
      wrap ≠ 1 ∧ (type = .sep ∨ ∀ s ∈ name, 0 ≤ castInt s.bytes.length) := by
  have hnlen : (name.map fun s => s.bytes.length).getD 0 = ((name.map Str.bytes).getD []).length := by cases name <;> rfl
  have hn : ((name.map Str.bytes).getD []).length < 2 ^ 57 := by
    cases name with
    | none => exact Nat.two_pow_pos 57
    | some s => exact s.in_memory
  have hone : wrap = 1 ↔ wrap.toNat = 1 := UInt64.toNat_inj.symm
  have hsome := sputWrap_isSome registered type (name.map Str.bytes) val.bytes wrap.toNat
  simp only [Option.mem_map, forall_exists_index, and_imp, forall_apply_eq_imp_iff₂] at hsome
  rw [ldifPutWrap, hnlen, ← hsome]
  by_cases hwrap : wrap = 1
  · have hsize : LDIF_SIZE_NEEDED_WRAP ((name.map Str.bytes).getD []).length val.bytes.length wrap.toNat = none := by
      rw [hone.mp hwrap]
      rfl
    rw [hsize]
    simp [hwrap, Except.isOk, Except.toBool]
  obtain ⟨size, hsize, hlt, hle⟩ := sizeNeededWrap_spec hn val.in_memory (fun h => hwrap (hone.mpr h))
  rw [hsize]
  cases hw : sputWrap registered type (name.map Str.bytes) val.bytes wrap.toNat with
  | none => simp [hwrap, Except.isOk, Except.toBool]
  | some w =>
    have hlen := length_sputWrap (fun h => hwrap (hone.mpr h)) hw
    simp only [Except.isOk_ite, extent_sput hw, Nat.mod_eq_of_lt hlt, Option.isSome_some, hwrap, ne_eq, not_false_iff, and_true,
      iff_true]
    omega

end

end Libreldap
end ReOpenLDAP
