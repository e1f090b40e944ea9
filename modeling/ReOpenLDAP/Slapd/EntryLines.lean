import ReOpenLDAP.Libreldap.LdifLine
import ReOpenLDAP.Slapd.EntryText

/-!
# Slapd.EntryLines

The lines that `entry2str` writes and `str2entry` reads.
-/

namespace ReOpenLDAP
namespace Slapd
namespace EntryText

open Ascii Libreldap List

section

variable (registered : List MustB64Encode)

def textOf (lines : List (List Octet × List Octet)) : List Octet :=
  lines.flatMap fun p => ldifSputWrap registered .value (some p.1) p.2 LDIF_LINE_WIDTH

@[simp] theorem textOf_nil : textOf registered [] = [] := rfl

@[simp] theorem textOf_cons (p : List Octet × List Octet) (lines : List (List Octet × List Octet)) :
    textOf registered (p :: lines) = ldifSputWrap registered .value (some p.1) p.2 LDIF_LINE_WIDTH ++ textOf registered lines := rfl

/-- The bytes that `entry2str` asks for. -/
def sizeNeeded (lines : List (List Octet × List Octet)) : ℕ := (lines.map fun p => LDIF_SIZE_NEEDED p.1.length p.2.length).sum

@[simp] theorem sizeNeeded_cons (p : List Octet × List Octet) (lines : List (List Octet × List Octet)) :
    sizeNeeded (p :: lines) = LDIF_SIZE_NEEDED p.1.length p.2.length + sizeNeeded lines := by simp [sizeNeeded]

theorem makeSpace_spec (emaxsize : ℕ) {n used : ℕ} (h : used + n + GRABSIZE ≤ 2 ^ 31) :
    ∃ m, makeSpace n used emaxsize = some m ∧ used + n ≤ m := by
  have hgrab : 0 < GRABSIZE := by decide
  fun_induction makeSpace n used emaxsize with
  | case1 emaxsize hle => exact ⟨emaxsize, rfl, hle⟩
  | case2 emaxsize hle hcast =>
    -- both are below `2 ^ 31`
    rcases hcast with hused | hmax
    · exact absurd (castInt_eq (by omega)) hused
    · exact absurd (castInt_eq (by omega)) hmax
  | case3 emaxsize hle hcast ih => exact ih

theorem putLine_spec (b : Buffer) (name val : List Octet) (h : b.out.length + LDIF_SIZE_NEEDED name.length val.length + GRABSIZE ≤ 2 ^ 31) :
    ∃ m, putLine registered LDIF_LINE_WIDTH b name val =
      some ⟨b.out ++ ldifSputWrap registered .value (some name) val LDIF_LINE_WIDTH, m⟩ := by
  obtain ⟨m, heq, hm⟩ := makeSpace_spec b.emaxsize h
  refine ⟨m, ?_⟩
  have hlen := length_sput registered name val
  rw [putLine, heq]
  simp only
  rw [if_pos]
  rw [length_append]
  omega

theorem putLines_spec (lines : List (List Octet × List Octet)) (b : Buffer) (h : b.out.length + sizeNeeded lines + GRABSIZE ≤ 2 ^ 31) :
    ∃ m, lines.foldlM (fun b p => putLine registered LDIF_LINE_WIDTH b p.1 p.2) b = some ⟨b.out ++ textOf registered lines, m⟩ := by
  induction lines generalizing b with
  | nil => exact ⟨b.emaxsize, by simp [textOf]⟩
  | cons p lines ih =>
    rw [sizeNeeded_cons] at h
    obtain ⟨m, heq⟩ := putLine_spec registered b p.1 p.2 (by omega)
    have hlen := length_sput registered p.1 p.2
    obtain ⟨m', heq'⟩ := ih ⟨b.out ++ ldifSputWrap registered .value (some p.1) p.2 LDIF_LINE_WIDTH, m⟩
      (by rw [length_append]; omega)
    refine ⟨m', ?_⟩
    rw [foldlM_cons, heq]
    simpa using heq'

theorem length_textOf (lines : List (List Octet × List Octet)) : (textOf registered lines).length ≤ sizeNeeded lines := by
  induction lines with
  | nil => exact le_refl 0
  | cons p lines ih =>
    have hlen := length_sput registered p.1 p.2
    rw [textOf_cons, sizeNeeded_cons, length_append]
    omega

variable {δ : Type*} {S : Schema δ} {e : Entry δ}

/-- The size of an entry, with what the buffer grows by, is no more than an `int`. -/
def SizeInt (S : Schema δ) (e : Entry δ) : Prop := sizeNeeded (entryLines S e) + 1 + GRABSIZE ≤ 2 ^ 31

theorem entry2str_eq (emaxsize : ℕ) (h : SizeInt S e) : entry2str S registered emaxsize e =
    some (textOf registered (entryLines S e), ((textOf registered (entryLines S e)).length : ℤ)) := by
  rw [SizeInt] at h
  have hlen := length_textOf registered (entryLines S e)
  obtain ⟨m, heq⟩ := putLines_spec registered (entryLines S e) ⟨[], emaxsize⟩ (by simp only [length_nil]; omega)
  obtain ⟨m', heq', -⟩ := makeSpace_spec m (show (textOf registered (entryLines S e)).length + 1 + GRABSIZE ≤ 2 ^ 31 by omega)
  rw [entry2str, entry2strWrap, heq]
  simp only [List.nil_append, heq', Option.map_some]
  rw [castInt_eq]
  have : 0 < GRABSIZE := by decide
  omega

end

section

variable {δ : Type*} {S : Schema δ}

theorem isName_of_keystring {rangeHack : Bool} {name : List Octet} (h : adKeystring rangeHack name = true) : IsName name ∧ 0 ∉ name := by
  cases name with
  | nil => cases h
  | cons c cs =>
    rw [adKeystring, Bool.and_eq_true, List.all_eq_true] at h
    obtain ⟨hc, hcs⟩ := h
    have hlead : ∀ d : Octet, isAlnum d = true → d ≠ COLON ∧ isSpace d = false ∧ d ≠ 0 := by
      intro d hd
      refine ⟨?_, not_space_of_alnum hd, ?_⟩ <;> rintro rfl <;> exact absurd hd (by decide)
    have hchar : ∀ d : Octet, d = ascii '-' ∨ d = ascii '.' ∨ d = ascii ';' ∨ d = ascii '=' →
        d ≠ COLON ∧ isSpace d = false ∧ d ≠ 0 := by
      rintro d (rfl | rfl | rfl | rfl) <;> decide
    have hall : ∀ d ∈ c :: cs, d ≠ COLON ∧ isSpace d = false ∧ d ≠ 0 := by
      intro d hd
      rcases List.mem_cons.mp hd with rfl | hd
      · exact hlead d hc
      · have hclass := hcs d hd
        simp only [Bool.or_eq_true, Bool.and_eq_true, decide_eq_true_eq] at hclass
        rcases hclass with (((halnum | hd) | hd) | hd) | hd
        · exact hlead d halnum
        · exact hchar d (.inl hd)
        · exact hchar d (.inr (.inl hd))
        · exact hchar d (.inr (.inr (.inl hd)))
        · exact hchar d (.inr (.inr (.inr hd.2)))
    refine ⟨⟨fun d hd => ?_, cons_ne_nil c cs, fun d hd => ⟨(hall d hd).1, (hall d hd).2.1⟩⟩, fun h0 => (hall 0 h0).2.2 rfl⟩
    obtain rfl := Option.some.inj hd
    exact hc

theorem str2ad_keystring {name : List Octet} {ad : δ} (h : str2ad S name = .ok ad) : adKeystring S.rangeHack name = true := by
  by_contra hkey
  have hfalse : adKeystring S.rangeHack name = false := Bool.eq_false_of_not_eq_true hkey
  rw [str2ad, if_pos (.inr hfalse), if_pos (.inr hfalse)] at h
  simp only at h
  split at h <;> cases h

structure LineOk (p : List Octet × List Octet) : Prop where
  name : IsName p.1
  no_nul : 0 ∉ p.1
  int : p.2.length < 2 ^ 31

variable (registered : List MustB64Encode) (fetchUrl : List Octet → Option (List Octet)) {lines : List (List Octet × List Octet)}

theorem textOf_fresh (h : ∀ p ∈ lines, LineOk p) : Fresh (textOf registered lines) := by
  cases lines with
  | nil => exact fun c hc => absurd hc (by simp [textOf])
  | cons p lines =>
    have hname := (h p (mem_cons_self ..)).name
    obtain ⟨mark, cs, -, heq⟩ := sput_eq registered LDIF_LINE_WIDTH p.1 p.2
    obtain ⟨d, name, hp⟩ := exists_cons_of_ne_nil hname.ne_nil
    intro c hc
    rw [textOf_cons, heq, hp] at hc
    exact hname.head c (by rw [hp]; exact hc)

theorem textOf_no_nul (h : ∀ p ∈ lines, LineOk p) : 0 ∉ textOf registered lines := by
  intro hmem
  obtain ⟨p, hp, hmem⟩ := List.mem_flatMap.mp hmem
  exact sput_no_nul registered LDIF_LINE_WIDTH p.2 (h p hp).no_nul hmem

theorem countlines_textOf (h : ∀ p ∈ lines, LineOk p) : ldifCountlines (textOf registered lines) = lines.length := by
  induction lines with
  | nil => rfl
  | cons p lines ih =>
    obtain ⟨hp, hlines⟩ := List.forall_mem_cons.mp h
    obtain ⟨line, hread⟩ := sput_line registered (fun _ => none) LDIF_LINE_WIDTH hp.name hp.int (textOf_fresh registered hlines)
    rw [textOf_cons, hread.count, ih hlines, length_cons]

variable {n : ℕ} {before : List Line} {dn : Option (List Octet × List Octet)}

def toLine (p : List Octet × List Octet) : Line := ⟨p.1, some p.2⟩

theorem readLines_end : readLines S fetchUrl n (some []) before dn = .ok (before, dn) := by
  have hget : ldifGetline (some []) = none := by rw [ldifGetline, if_pos (.inl rfl)]
  rw [readLines.eq_def]
  split
  · rfl
  · rename_i h
    rw [hget] at h
    cases h

theorem readLines_line {p : List Octet × List Octet} (hp : LineOk p) (hlines : ∀ p ∈ lines, LineOk p) (hn : before.length < n) :
    readLines S fetchUrl n (some (textOf registered (p :: lines))) before dn =
      if CaseEq p.1 (text "dn") then
        match dn with
        | some _ => .error (.rc LDAP_INVALID_SYNTAX)
        | none =>
          match S.dnPrettyNormal p.2 with
          | .error rc => .error (.rc rc)
          | .ok names => readLines S fetchUrl n (some (textOf registered lines)) before (some names)
      else readLines S fetchUrl n (some (textOf registered lines)) (before ++ [toLine p]) dn := by
  obtain ⟨line, hread⟩ := sput_line registered fetchUrl LDIF_LINE_WIDTH hp.name hp.int (textOf_fresh registered hlines)
  have hget := hread.getline
  have hgo : ¬ (line = [] ∨ line.head? = some NL) := by
    rintro (hnil | hnl)
    · exact hread.ne_nil hnil
    · exact hread.starts NL hnl rfl
  rw [textOf_cons, readLines.eq_def]
  split
  · rename_i h
    rw [hget] at h
    cases h
  · rename_i s next h
    rw [hget] at h
    obtain ⟨rfl, rfl⟩ := Prod.mk.inj (Option.some.inj h)
    rw [if_neg hgo, if_neg (by omega), hread.parse]
    rfl

theorem readLines_text (h : ∀ p ∈ lines, LineOk p) (hdn : ∀ p ∈ lines, ¬ CaseEq p.1 (text "dn")) (hn : before.length + lines.length ≤ n) :
    readLines S fetchUrl n (some (textOf registered lines)) before dn = .ok (before ++ lines.map toLine, dn) := by
  induction lines generalizing before with
  | nil => simpa using readLines_end fetchUrl
  | cons p lines ih =>
    obtain ⟨hp, hlines⟩ := List.forall_mem_cons.mp h
    obtain ⟨hpdn, hlinesdn⟩ := List.forall_mem_cons.mp hdn
    rw [length_cons] at hn
    rw [readLines_line registered fetchUrl hp hlines (by omega), if_neg hpdn, ih hlines hlinesdn (by rw [length_append, length_singleton]; omega)]
    simp

end

end EntryText
end Slapd
end ReOpenLDAP
