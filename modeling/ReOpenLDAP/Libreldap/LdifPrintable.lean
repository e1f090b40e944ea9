import ReOpenLDAP.Libreldap.Ldif

/-!
# Libreldap.LdifPrintable

Two tests whether a value may stand in LDIF as it is. The value is at the front of the memory, and an access behind the memory
is `none`.
-/

namespace ReOpenLDAP
namespace Libreldap

open Ascii List Option

/-- `for (i = 0; val[i]; i++)` -/
def printableText : List Octet → Option Int
  | [] => none
  | c :: mem => if c = 0 then some 0 else if isPrint c then printableText mem else some 1

/-- `ldif_is_not_printable` for a value at `mem`. -/
def ldifIsNotPrintable (mem : List Octet) (vlen : ℕ) : Option Int :=
  if vlen = 0 then some (-1)
  else do
    let first ← mem[0]?
    if isGraph first ∧ first ≠ COLON ∧ first ≠ LESS then
      let last ← mem[vlen - 1]?
      if isGraph last then printableText mem else some 1
    else some 1

/-- `for (byte = val; byte < stop; byte++, len++)` -/
def plainOctets : ℕ → List Octet → Option Bool
  | 0, _ => some true
  | _ + 1, [] => none
  | n + 1, c :: mem => if isPrint c then plainOctets n mem else some false

def b64Octets : ℕ → List Octet → Option (List Octet)
  | n + 3, a :: b :: c :: mem => (b64Octets n mem).map fun octets => a :: b :: c :: octets
  | 2, a :: b :: _ => some [a, b]
  | 1, a :: _ => some [a]
  | 0, _ => some []
  | _, _ => none

/-- The condition under which `ldif_sput_wrap` copies the value, and the loop that finds out the rest of it. -/
def sputPlain (registered : List MustB64Encode) (name mem : List Octet) (vlen : ℕ) : Option Bool := do
  let first ← mem[0]?
  if isGraph first && first ≠ COLON && first ≠ LESS then
    let last ← mem[vlen - 1]?
    if isGraph last && !decide (text ";binary" <:+: name) && !ldifMustB64Encode registered name then plainOctets vlen mem
    else some false
  else some false

/-- `ldif_sput_wrap` for `LDIF_PUT_VALUE` and a value that is not empty. -/
def sputRead (registered : List MustB64Encode) (name mem : List Octet) (vlen wrap : ℕ) : Option (List Octet) := do
  let wrap := if wrap = 0 then LDIF_LINE_WIDTH + LDIF_KLUDGE else wrap
  if ← sputPlain registered name mem vlen then
    some (name ++ COLON :: SP :: fold wrap (name.length + 2) (mem.take vlen) ++ [NL])
  else
    let octets ← b64Octets vlen mem
    some (name ++ COLON :: COLON :: SP :: fold wrap (name.length + 3) (encodeB64 octets) ++ [NL])

theorem plainOctets_value (val behind : List Octet) : plainOctets val.length (val ++ behind) = some (val.all isPrint) := by
  induction val with
  | nil => rfl
  | cons c val ih =>
    rw [length_cons, cons_append, plainOctets, ih, all_cons]
    cases isPrint c <;> rfl

theorem b64Octets_value (val behind : List Octet) : b64Octets val.length (val ++ behind) = some val := by
  match val with
  | [] => simp [b64Octets]
  | [a] => rfl
  | [a, b] => rfl
  | a :: b :: c :: val =>
    have ih := b64Octets_value val behind
    simp only [length_cons, cons_append, b64Octets, ih, map_some]

variable {registered : List MustB64Encode} {name val : List Octet}

theorem ends_of_ne_nil (hne : val ≠ []) : ∃ first last, val.head? = some first ∧ val.getLast? = some last ∧
    ∀ behind, (val ++ behind)[0]? = some first ∧ (val ++ behind)[val.length - 1]? = some last := by
  have hpos := List.length_pos_iff.mpr hne
  refine ⟨val.head hne, val.getLast hne, List.head?_eq_some_head hne, List.getLast?_eq_some_getLast hne, fun behind => ?_⟩
  rw [List.getElem?_append_left hpos, List.getElem?_append_left (by omega), ← List.head?_eq_getElem?, ← List.getLast?_eq_getElem?]
  exact ⟨List.head?_eq_some_head hne, List.getLast?_eq_some_getLast hne⟩

theorem sputPlain_eq (hne : val ≠ []) (behind : List Octet) :
    sputPlain registered name (val ++ behind) val.length = some (plainValue registered name val) := by
  obtain ⟨first, last, hfirst, hlast, hends⟩ := ends_of_ne_nil hne
  simp only [sputPlain, plainValue, hfirst, hlast, hends behind, plainOctets_value, bind_eq_bind, bind_some]
  cases isGraph first && first ≠ COLON && first ≠ LESS <;>
    cases isGraph last <;> cases decide (text ";binary" <:+: name) <;> cases ldifMustB64Encode registered name <;> simp_all

theorem sputRead_eq (hne : val ≠ []) (behind : List Octet) (wrap : ℕ) :
    sputRead registered name (val ++ behind) val.length wrap = some (ldifSputWrap registered .value (some name) val wrap) := by
  have htake : (val ++ behind).take val.length = val := take_left
  rw [sputRead, sputPlain_eq hne, bind_eq_bind, bind_some, b64Octets_value, htake]
  cases hplain : plainValue registered name val <;> simp [ldifSputWrap, hne, hplain]

def WrittenPlain (registered : List MustB64Encode) (name val : List Octet) (wrap : ℕ) : Prop :=
  ∃ w, ldifSputWrap registered .value (some name) val wrap = name ++ COLON :: SP :: fold w (name.length + 2) val ++ [NL]

theorem writtenPlain_iff (hne : val ≠ []) (wrap : ℕ) : WrittenPlain registered name val wrap ↔ plainValue registered name val = true := by
  cases hplain : plainValue registered name val with
  | false => simp [WrittenPlain, ldifSputWrap, hne, hplain, COLON, SP]
  | true => simpa [WrittenPlain, ldifSputWrap, hne, hplain] using ⟨_, rfl⟩

def TestsAgree (registered : List MustB64Encode) (name val : List Octet) (wrap : ℕ) : Prop :=
  (∃ r, (∀ behind, ldifIsNotPrintable (val ++ behind) val.length = some r) ∧ (r = 0 ↔ WrittenPlain registered name val wrap)) ∧
  ∃ line, ∀ behind, sputRead registered name (val ++ behind) val.length wrap = some line

/-- The value begins or ends with an octet that the tests refuse, or the first one that is not printable is there and not NUL. -/
def Refused (val : List Octet) : Prop :=
  (∃ first, val.head? = some first ∧ (¬ isGraph first ∨ first = COLON ∨ first = LESS)) ∨
  (∃ last, val.getLast? = some last ∧ ¬ isGraph last) ∨ ∃ c, val.find? (fun c => !isPrint c) = some c ∧ c ≠ 0

theorem printableText_found {c : Octet} (h : val.find? (fun c => !isPrint c) = some c) (behind : List Octet) :
    printableText (val ++ behind) = some (if c = 0 then 0 else 1) := by
  induction val with
  | nil => cases h
  | cons d val ih =>
    rw [List.find?_cons] at h
    rw [cons_append, printableText]
    cases hd : isPrint d with
    | true =>
      have hzero : d ≠ 0 := by
        rintro rfl
        exact absurd hd (by decide)
      rw [if_neg hzero, if_pos rfl]
      exact ih (by simpa [hd] using h)
    | false =>
      obtain rfl : d = c := by simpa [hd] using h
      rw [if_neg Bool.false_ne_true]
      split_ifs <;> rfl

theorem printableText_none (h : val.find? (fun c => !isPrint c) = none) : printableText val = none := by
  induction val with
  | nil => rfl
  | cons d val ih =>
    have hall := List.find?_eq_none.mp h
    have hd : isPrint d = true := by simpa using hall d mem_cons_self
    have hzero : d ≠ 0 := by
      rintro rfl
      exact absurd hd (by decide)
    rw [printableText, if_neg hzero, if_pos hd]
    exact ih (List.find?_eq_none.mpr fun c hc => hall c (mem_cons_of_mem _ hc))

theorem is_not_printable_iff (hne : val ≠ []) (hbin : ¬ text ";binary" <:+: name) (hreg : ldifMustB64Encode registered name = false)
    (wrap : ℕ) : TestsAgree registered name val wrap ↔ Refused val := by
  obtain ⟨first, last, hfirst, hlast, hends⟩ := ends_of_ne_nil hne
  have hlen : val.length ≠ 0 := fun h => hne (List.length_eq_zero_iff.mp h)
  have hline : ∃ line, ∀ behind, sputRead registered name (val ++ behind) val.length wrap = some line :=
    ⟨_, fun behind => sputRead_eq hne behind wrap⟩
  have hplain : plainValue registered name val =
      (isGraph first && first ≠ COLON && first ≠ LESS && isGraph last && val.all isPrint) := by
    simp [plainValue, hfirst, hlast, hbin, hreg]
  have htest : ∀ behind, ldifIsNotPrintable (val ++ behind) val.length =
      if (isGraph first ∧ first ≠ COLON ∧ first ≠ LESS) ∧ isGraph last then printableText (val ++ behind) else some 1 := by
    intro behind
    rw [ldifIsNotPrintable, if_neg hlen, (hends behind).1, (hends behind).2]
    by_cases hf : isGraph first ∧ first ≠ COLON ∧ first ≠ LESS <;> by_cases hl : isGraph last <;> simp [hf, hl]
  rw [TestsAgree, and_iff_left hline, writtenPlain_iff hne, hplain]
  by_cases hends : (isGraph first ∧ first ≠ COLON ∧ first ≠ LESS) ∧ isGraph last
  · have hrefused : Refused val ↔ ∃ c, val.find? (fun c => !isPrint c) = some c ∧ c ≠ 0 := by
      simp [Refused, hfirst, hlast, hends]
    simp only [htest, if_pos hends, hrefused]
    cases hfind : val.find? fun c => !isPrint c with
    | none =>
      -- The loop comes to the end of the value.
      have hnone : printableText (val ++ []) = none := by rw [List.append_nil, printableText_none hfind]
      simp only [reduceCtorEq, false_and, exists_false, iff_false]
      rintro ⟨r, hr, -⟩
      exact absurd (hnone.symm.trans (hr [])) (by simp)
    | some c =>
      have hall : val.all isPrint = false := by
        have hc := List.find?_some hfind
        exact List.all_eq_false.mpr ⟨c, List.mem_of_find?_eq_some hfind, by simpa using hc⟩
      simp only [printableText_found hfind, hall, Bool.and_false, Bool.false_eq_true, iff_false, Option.some.injEq, exists_eq_left']
      constructor
      · rintro ⟨r, hr, hnot⟩ rfl
        exact hnot (hr []).symm
      · intro hc
        exact ⟨1, fun _ => if_neg hc, by decide⟩
  · have hrefused : Refused val := by
      rw [Refused, hfirst, hlast]
      simp only [Option.some.injEq, exists_eq_left']
      tauto
    simp only [htest, if_neg hends, hrefused, iff_true]
    refine ⟨1, fun _ => rfl, ?_⟩
    simp only [Bool.and_eq_true, decide_eq_true_eq, one_ne_zero, false_iff]
    tauto

/-- A value with a NUL is taken for printable, and is written in base 64. -/
theorem is_not_printable_nul : ¬ TestsAgree [] (text "cn") [97, 0, 98] 76 := by
  rintro ⟨⟨r, hr, hplain⟩, -⟩
  have hzero : r = 0 := Option.some.inj ((hr []).symm.trans (by decide))
  exact absurd ((writtenPlain_iff (by decide) 76).mp (hplain.mp hzero)) (by decide)

/-- Behind a printable value more is read. -/
example : ldifIsNotPrintable (text "ab") 2 = none ∧ sputRead [] (text "cn") (text "ab") 2 76 = some (text "cn: ab\n") := by decide

theorem is_not_printable_iff_umlaut : ¬ text ";binary" <:+: text "cn" ∧ TestsAgree [] (text "cn") [97, 228, 98] 76 :=
  ⟨by decide, (is_not_printable_iff (by decide) (by decide) rfl 76).mpr (.inr (.inr ⟨228, by decide, by decide⟩))⟩

end Libreldap
end ReOpenLDAP
