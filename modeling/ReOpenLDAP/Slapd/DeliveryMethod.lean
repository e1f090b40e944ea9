import ReOpenLDAP.Lib.Scan

/-!
# Slapd.DeliveryMethod

`deliveryMethodValidate`: a list of ways to deliver a message, between dollar signs.

Behind a method the code moves its pointer back where it should move it on, so it stands on the last octet of the method.
A pointer that leaves the string, and a read outside of it, have no result.
-/

namespace ReOpenLDAP
namespace Slapd
namespace DeliveryMethods

open Ascii Scan List Option

def SP : Octet := 32

def DOLLAR : Octet := 36

/-- `tmp`: what is in front of `bv_val`, the last octet first, what is there to be read, and `bv_len`. -/
structure Cursor where
  before : List Octet
  val : List Octet
  len : ℕ

/-- `tmp.bv_len -= n; tmp.bv_val += n` -/
def Cursor.skip (tmp : Cursor) (n : ℕ) : Cursor :=
  ⟨(tmp.val.take n).reverse ++ tmp.before, tmp.val.drop n, tmp.len - n⟩

/-- `tmp.bv_len++; tmp.bv_val--` -/
def Cursor.back (tmp : Cursor) : Option Cursor :=
  match tmp.before with
  | [] => none
  | b :: before => some ⟨before, b :: tmp.val, tmp.len + 1⟩

/-- `while (!BER_BVISEMPTY(&tmp) && (tmp.bv_val[0] == ' '))`, by what is in front of the pointer. -/
def skipBlanks (val : List Octet) (len : ℕ) : List Octet → Option Cursor
  | [] => if len = 0 then some ⟨[], val, len⟩ else val.head?.bind fun b => if b = SP then none else some ⟨[], val, len⟩
  | a :: before =>
    if len = 0 then some ⟨a :: before, val, len⟩
    else val.head?.bind fun b => if b = SP then skipBlanks (a :: val) (len + 1) before else some ⟨a :: before, val, len⟩

/-- The words of the cases of `switch (tmp.bv_val[0])`, in the order in which they are compared. -/
def pdmsFrom (c : Octet) : List (List Octet) :=
  if c = ascii 'a' ∨ c = ascii 'A' then [text "any"]
  else if c = ascii 'm' ∨ c = ascii 'M' then [text "mhs"]
  else if c = ascii 'p' ∨ c = ascii 'P' then [text "physical"]
  else if c = ascii 't' ∨ c = ascii 'T' then [text "telex", text "teletex", text "telephone"]
  else if c = ascii 'g' ∨ c = ascii 'G' then [text "g3fax", text "g4fax"]
  else if c = ascii 'i' ∨ c = ascii 'I' then [text "ia5"]
  else if c = ascii 'v' ∨ c = ascii 'V' then [text "videotex"]
  else []

/-- `(tmp.bv_len >= LENOF(s)) && (strncasecmp(tmp.bv_val, s, LENOF(s)) == 0)`, one word after the other. -/
def skipPdm (tmp : Cursor) : List (List Octet) → Option (Option Cursor)
  | [] => some none
  | word :: words =>
    if word.length ≤ tmp.len then
      (strncasecmp tmp.val word).bind fun same => if same then some (some (tmp.skip word.length)) else skipPdm tmp words
    else skipPdm tmp words

inductive Pass where
  | done (success : Bool)
  | again (tmp : Cursor)

def separator (tmp : Cursor) : Option Pass :=
  if tmp.len = 0 then some (.done true)
  else do
    let tmp ← skipBlanks tmp.val tmp.len tmp.before
    if tmp.len = 0 then return .done false
    let c ← tmp.val.head?
    if c = DOLLAR then
      let tmp ← tmp.back
      let tmp ← skipBlanks tmp.val tmp.len tmp.before
      return .again tmp
    else return .done false

/-- From `again:` to the end or to `goto again`. -/
def pass (tmp : Cursor) : Option Pass :=
  if tmp.len < 3 then some (.done false)
  else do
    let c ← tmp.val.head?
    match ← skipPdm tmp (pdmsFrom c) with
    | none => return .done false
    | some tmp => separator tmp

/-- From a cursor the code ends with an outcome: `LDAP_SUCCESS` or not, or none. -/
inductive Exec : Cursor → Option Bool → Prop where
  | fault {tmp : Cursor} : pass tmp = none → Exec tmp none
  | done {tmp : Cursor} {success : Bool} : pass tmp = some (.done success) → Exec tmp (some success)
  | again {tmp tmp' : Cursor} {o : Option Bool} : pass tmp = some (.again tmp') → Exec tmp' o → Exec tmp o

/-- `deliveryMethodValidate` begins with the whole value. -/
def start (s : List Octet) : Cursor := ⟨[], s, s.length⟩

def pdms : List (List Octet) :=
  [text "any", text "mhs", text "physical", text "telex", text "teletex", text "g3fax", text "g4fax", text "ia5",
    text "videotex", text "telephone"]

def Pdm (s : List Octet) : Prop := ∃ word ∈ pdms, CaseEq s word

instance (s : List Octet) : Decidable (Pdm s) := inferInstanceAs (Decidable (∃ word ∈ pdms, CaseEq s word))

/-- `pdm *( *SP "$" *SP pdm )` -/
inductive DeliveryMethod : List Octet → Prop where
  | pdm {s : List Octet} : Pdm s → DeliveryMethod s
  | more {s rest : List Octet} (m n : ℕ) : Pdm s → DeliveryMethod rest →
      DeliveryMethod (s ++ (List.replicate m SP ++ DOLLAR :: (List.replicate n SP ++ rest)))

theorem DeliveryMethod.dollar_mem {s : List Octet} (h : DeliveryMethod s) : Pdm s ∨ DOLLAR ∈ s := by
  cases h with
  | pdm h => exact .inl h
  | more m n _ _ => exact .inr (by simp)

/-- What the words of the cases are, and what each octet of a value selects. -/
theorem pdms_spec :
    (∀ word ∈ pdms, 3 ≤ word.length ∧ toLower DOLLAR ∉ word ∧ word.map toLower = word ∧
      ∀ word' ∈ pdms, word <+: word' → word = word') ∧
    ∀ c, (∀ word ∈ pdmsFrom c, word ∈ pdms) ∧ ∀ word ∈ pdms, (word.head? = some (toLower c) → word ∈ pdmsFrom c) ∧
      (word.getLast? = some (toLower c) → c ≠ SP ∧ c ≠ DOLLAR ∧ pdmsFrom c = []) := by
  decide +kernel

theorem map_toLower_of_caseEq {s word : List Octet} (hword : word ∈ pdms) (h : CaseEq s word) : s.map toLower = word :=
  Eq.trans h (pdms_spec.1 word hword).2.2.1

theorem Pdm.no_dollar {s : List Octet} (h : Pdm s) : DOLLAR ∉ s := by
  obtain ⟨word, hword, heq⟩ := h
  intro hmem
  exact (pdms_spec.1 word hword).2.1 (map_toLower_of_caseEq hword heq ▸ List.mem_map_of_mem hmem)

theorem Pdm.alone {w s : List Octet} (hw : Pdm w) (h : Pdm (w ++ s)) : s = [] := by
  obtain ⟨word, hword, heq⟩ := hw
  obtain ⟨word', hword', heq'⟩ := h
  have hlen := heq.length_eq
  have hlen' := heq'.length_eq
  have hw := map_toLower_of_caseEq hword heq
  have hs := map_toLower_of_caseEq hword' heq'
  rw [map_append, hw] at hs
  obtain rfl := (pdms_spec.1 word hword).2.2.2 word' hword' ⟨_, hs⟩
  rw [length_append] at hlen'
  exact List.length_eq_zero_iff.mp (by omega)

/-! ## One pass -/

variable {tmp : Cursor} {words : List (List Octet)}

theorem skipPdm_spec (hlen : tmp.len = tmp.val.length) :
    (∃ word ∈ words, ∃ w rest, tmp.val = w ++ rest ∧ CaseEq w word ∧ skipPdm tmp words = some (some (tmp.skip w.length))) ∨
    ((∀ word ∈ words, ¬ ∃ w rest, tmp.val = w ++ rest ∧ CaseEq w word) ∧ skipPdm tmp words = some none) := by
  induction words with
  | nil => exact .inr ⟨by simp, rfl⟩
  | cons word words ih =>
    rw [skipPdm]
    by_cases hroom : word.length ≤ tmp.len
    · rw [if_pos hroom]
      obtain ⟨same, hsame⟩ := strncasecmp_of_length (hlen ▸ hroom)
      rw [hsame, bind_some]
      cases same with
      | true =>
        obtain ⟨w, rest, hval, heq⟩ := strncasecmp_eq_true_iff.mp hsame
        exact .inl ⟨word, mem_cons_self, w, rest, hval, heq, by rw [if_pos rfl, heq.length_eq]⟩
      | false =>
        have hno : ¬ ∃ w rest, tmp.val = w ++ rest ∧ CaseEq w word := by
          rw [← strncasecmp_eq_true_iff, hsame]
          simp
        rcases ih with ⟨word', hword', hrest⟩ | ⟨hnone, hskip⟩
        · exact .inl ⟨word', mem_cons_of_mem _ hword', hrest⟩
        · exact .inr ⟨List.forall_mem_cons.mpr ⟨hno, hnone⟩, hskip⟩
    · rw [if_neg hroom]
      have hno : ¬ ∃ w rest, tmp.val = w ++ rest ∧ CaseEq w word := by
        rintro ⟨w, rest, hval, heq⟩
        rw [hlen, hval, length_append, heq.length_eq] at hroom
        omega
      rcases ih with ⟨word', hword', hrest⟩ | ⟨hnone, hskip⟩
      · exact .inl ⟨word', mem_cons_of_mem _ hword', hrest⟩
      · exact .inr ⟨List.forall_mem_cons.mpr ⟨hno, hnone⟩, hskip⟩

theorem skipBlanks_stay {c : Octet} {val before : List Octet} {len : ℕ} (hc : c ≠ SP) :
    skipBlanks (c :: val) (len + 1) before = some ⟨before, c :: val, len + 1⟩ := by
  cases before <;> simp [skipBlanks, hc]

theorem skipBlanks_back {c a : Octet} {val before : List Octet} {len : ℕ} (hc : c = SP) (ha : a ≠ SP) :
    skipBlanks (c :: val) (len + 1) (a :: before) = some ⟨before, a :: c :: val, len + 2⟩ := by
  rw [skipBlanks, if_neg (Nat.succ_ne_zero len), List.head?_cons, bind_some, if_pos hc]
  exact skipBlanks_stay ha

theorem pass_word {c : Octet} {tmp' : Cursor} (hlen : ¬ tmp.len < 3) (hc : tmp.val.head? = some c)
    (hskip : skipPdm tmp (pdmsFrom c) = some (some tmp')) : pass tmp = separator tmp' := by
  rw [pass, if_neg hlen, hc]
  simp only [bind_eq_bind, bind_some, hskip]

theorem pass_no_word {c : Octet} (hc : tmp.val.head? = some c) (hskip : skipPdm tmp (pdmsFrom c) = some none) :
    pass tmp = some (.done false) := by
  unfold pass
  split
  · rfl
  · simp only [hc, bind_eq_bind, bind_some, hskip]
    rfl

theorem exec_no_word {c : Octet} {val before : List Octet} {len : ℕ} (hc : pdmsFrom c = []) :
    pass ⟨before, c :: val, len⟩ = some (.done false) :=
  pass_no_word rfl (by rw [hc, skipPdm])

theorem exec_behind_word {a c : Octet} {before val : List Octet} (ha : a ≠ SP ∧ a ≠ DOLLAR ∧ pdmsFrom a = []) :
    separator ⟨a :: before, c :: val, (c :: val).length⟩ = some (.done false) ∨
    ∃ tmp, separator ⟨a :: before, c :: val, (c :: val).length⟩ = some (.again tmp) ∧ pass tmp = some (.done false) := by
  obtain ⟨hblank, hdollar, hfrom⟩ := ha
  unfold separator
  rw [if_neg (by simp)]
  by_cases hc : c = SP
  · left
    simp only [length_cons, skipBlanks_back hc hblank, bind_eq_bind, bind_some, List.head?_cons,
      if_neg hdollar]
    rfl
  · simp only [length_cons, skipBlanks_stay hc, bind_eq_bind, bind_some, List.head?_cons]
    by_cases hd : c = DOLLAR
    · right
      refine ⟨⟨before, a :: c :: val, val.length + 2⟩, ?_, exec_no_word hfrom⟩
      simp only [if_pos hd, Cursor.back, bind_some, skipBlanks_stay hblank]
      rfl
    · left
      simp only [if_neg hd]
      rfl

theorem exec_of_pass {success : Bool} (h : pass tmp = some (.done success)) (o : Option Bool) :
    Exec tmp o ↔ o = some success := by
  constructor
  · intro hexec
    cases hexec with
    | fault h' => cases h.symm.trans h'
    | done h' => cases h.symm.trans h'; rfl
    | again h' _ => cases h.symm.trans h'
  · rintro rfl
    exact .done h

theorem exec_of_again {tmp' : Cursor} {success : Bool} (h : pass tmp = some (.again tmp'))
    (h' : pass tmp' = some (.done success)) (o : Option Bool) : Exec tmp o ↔ o = some success := by
  constructor
  · intro hexec
    cases hexec with
    | fault h'' => cases h.symm.trans h''
    | done h'' => cases h.symm.trans h''
    | again h'' hexec =>
      cases h.symm.trans h''
      exact (exec_of_pass h' o).mp hexec
  · rintro rfl
    exact .again h (.done h')

theorem exec_start (s : List Octet) (o : Option Bool) : Exec (start s) o ↔ o = some (decide (Pdm s)) := by
  cases s with
  | nil =>
    have hno : ¬ Pdm [] := by
      rintro ⟨word, hword, heq⟩
      have := (pdms_spec.1 word hword).1
      rw [← heq.length_eq] at this
      cases this
    rw [decide_eq_false hno]
    exact exec_of_pass rfl o
  | cons c s =>
    rcases @skipPdm_spec (start (c :: s)) (pdmsFrom c) rfl with ⟨word, hword, w, rest, hval, heq, hskip⟩ | ⟨hnone, hskip⟩
    · have hmem := (pdms_spec.2 c).1 word hword
      have hpdm : Pdm w := ⟨word, hmem, heq⟩
      have hwlen := heq.length_eq ▸ (pdms_spec.1 word hmem).1
      have hval' : c :: s = w ++ rest := hval
      have htmp : (start (c :: s)).skip w.length = ⟨w.reverse, rest, rest.length⟩ := by
        simp [start, Cursor.skip, hval']
      have hroom : ¬ (start (c :: s)).len < 3 := by
        simp only [start, hval', length_append]
        omega
      have hpass := pass_word hroom rfl hskip
      rw [htmp] at hpass
      cases rest with
      | nil =>
        rw [List.append_nil] at hval'
        rw [hval', decide_eq_true hpdm, ← hval']
        exact exec_of_pass hpass o
      | cons r rest =>
        rw [decide_eq_false fun h => cons_ne_nil r rest (hpdm.alone (hval' ▸ h))]
        obtain ⟨init, a, rfl⟩ := (eq_nil_or_concat w).resolve_left (by rintro rfl; simp at hwlen)
        have hlast : word.getLast? = some (toLower a) := by
          rw [← map_toLower_of_caseEq hmem heq]
          simp
        rw [concat_eq_append, reverse_append] at hpass
        rcases exec_behind_word (((pdms_spec.2 a).2 word hmem).2 hlast) with h | ⟨tmp, h, h'⟩
        · exact exec_of_pass (hpass.trans h) o
        · exact exec_of_again (hpass.trans h) h' o
    · have hno : ¬ Pdm (c :: s) := by
        rintro ⟨word, hword, heq⟩
        have hhead : word.head? = some (toLower c) := by
          rw [← map_toLower_of_caseEq hword heq]
          rfl
        exact hnone word (((pdms_spec.2 c).2 word hword).1 hhead) ⟨c :: s, [], (List.append_nil _).symm, heq⟩
      rw [decide_eq_false hno]
      exact exec_of_pass (pass_no_word rfl hskip) o

/-- The code settles the grammar on every value but those with more than one method. -/
theorem deliveryMethodValidate_iff (s : List Octet) :
    (∃ success, (∀ o, Exec (start s) o ↔ o = some success) ∧ (success = true ↔ DeliveryMethod s)) ↔
      (DOLLAR ∈ s → ¬ DeliveryMethod s) := by
  constructor
  · rintro ⟨success, hexec, hiff⟩ hdollar hmethod
    have hsuccess := (exec_start s _).mp ((hexec _).mpr rfl)
    rw [hiff.mpr hmethod, Option.some.injEq, eq_comm, decide_eq_true_eq] at hsuccess
    exact hsuccess.no_dollar hdollar
  · intro h
    refine ⟨decide (Pdm s), exec_start s, ?_⟩
    rw [decide_eq_true_eq]
    constructor
    · exact .pdm
    · intro hmethod
      exact hmethod.dollar_mem.resolve_right fun hdollar => h hdollar hmethod

/-- `any $ mhs` is a list of two methods. -/
theorem deliveryMethodValidate_refuses :
    DeliveryMethod (text "any $ mhs") ∧ Exec (start (text "any $ mhs")) (some false) := by
  refine ⟨?_, .done rfl⟩
  exact .more 1 1 ⟨text "any", by decide, rfl⟩ (.pdm ⟨text "mhs", by decide, rfl⟩)

end DeliveryMethods
end Slapd
end ReOpenLDAP
