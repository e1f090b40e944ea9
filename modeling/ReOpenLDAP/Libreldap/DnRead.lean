import ReOpenLDAP.Lib.Escape
import ReOpenLDAP.Libreldap.DnText

/-!
# Libreldap.DnRead

The reader of `ldap_bv2dn_x` for LDAPv2 and DCE. The rest of the text stands for the pointer `p`, a NUL is its end.

No flag but the format is set: spaces are skipped, and any character may be escaped in LDAPv2.
-/

namespace ReOpenLDAP
namespace Libreldap
namespace Getdn

open Ascii List

def skipSpaces (t : List Octet) : List Octet := t.dropWhile dnSpace

/-- `LDAP_DN_DESC_CHAR` -/
def descChar (c : Octet) : Bool := isAlnum c || c = ascii '-'

/-- `LDAP_DN_LANG_SEP` -/
def langSep (c : Octet) : Bool := c = ascii ';'

/-- `LDAP_DN_ASCII_HEXDIGIT` -/
def hexDigit (c : Octet) : Bool := isDigit c || (97 ≤ c && c ≤ 102) || (65 ≤ c && c ≤ 70)

/-- `ldap_int_parse_numericoid`; `start` at the first digit of a number. -/
def numericoid (start : Bool) : List Octet → Option (List Octet × List Octet)
  | [] => some ([], [])
  | c :: t =>
    if isDigit c then (numericoid false t).map fun r => (c :: r.1, r.2)
    else if start then none
    else if c = ascii '.' then (numericoid true t).map fun r => (c :: r.1, r.2)
    else some ([], c :: t)

/-- The state `B4OIDATTRTYPE`. -/
def oidType (t : List Octet) : Option (List Octet × List Octet) := if t = [] then none else numericoid true t

/-- The state `B4STRINGATTRTYPE` behind the first letter. Options are left out. -/
def stringType (c : Octet) (t : List Octet) : List Octet × List Octet :=
  let rest := t.dropWhile descChar
  (c :: t.takeWhile descChar, if rest.head?.any langSep then rest.dropWhile fun d => descChar d || langSep d else rest)

/-- The state `B4AVA`, and the one behind it. -/
def readType (format : Format) (t : List Octet) : Option (List Octet × List Octet) :=
  match skipSpaces t with
  | [] => none
  | c :: t =>
    if isDigit c then oidType (c :: t)
    else if isAlpha c = false then none
    else if format = .ldapv2 ∧ ((c :: t).take 4).map toLower = text "oid." then oidType ((c :: t).drop 4)
    else some (stringType c t)

def hexval (c : Octet) : ℕ := if isDigit c then c.val - 48 else if c ≤ 70 then c.val - 55 else c.val - 87

/-- `hexstr2binval`. What stands behind a space is left out. -/
def hexstr2binval (format : Format) : List Octet → Option (List Octet × List Octet)
  | [] => some ([], [])
  | [c] => if valueEnd format c then some ([], [c]) else if dnSpace c then some ([], []) else none
  | c :: d :: t =>
    if valueEnd format c then some ([], c :: d :: t)
    else if dnSpace c then some ([], (d :: t).dropWhile fun x => !valueEnd format x)
    else if hexDigit c && hexDigit d then
      (hexstr2binval format t).map fun r => (Fin.ofNat 256 (hexval c * 16 + hexval d) :: r.1, r.2)
    else none

/-- `IA52strval`, `DCE2strval`. -/
def strval (format : Format) (t : List Octet) : Option (List Octet × List Octet) :=
  match format with
  | .ldapv2 => Escape.read backslash (fun _ => true) (valueEnd .ldapv2) dnSpace t
  | .dce => Escape.read backslash needEscapeDCE (valueEnd .dce) dnSpace t

def quotedScan : List Octet → Option (List Octet × ℕ × List Octet)
  | [] => none
  | [c] => if c = ascii '"' then some ([], 0, []) else none
  | c :: d :: t =>
    if c = backslash then (quotedScan t).map fun r => (c :: d :: r.1, r.2.1 + 1, r.2.2)
    else if c = ascii '"' then some ([], 0, d :: t)
    else (quotedScan (d :: t)).map fun r => (c :: r.1, r.2)

def quotedIA52strval (t : List Octet) : Option (List Octet × List Octet) :=
  (quotedScan t).map fun r =>
    let len := r.1.length - r.2.1
    (if r.2.1 = 0 then r.1.take len else Escape.unescape backslash len r.1, skipSpaces r.2.2)

/-- The state `B4AVAEQUALS`, and the value. Only in DCE may the text end behind the `=`. -/
def readValue (format : Format) (t : List Octet) : Option (List Octet × Encoding × List Octet) :=
  match skipSpaces t with
  | [] => none
  | c :: t =>
    if c ≠ ascii '=' then none
    else
      match skipSpaces t with
      | [] => if format = .dce then some ([], .string, []) else none
      | d :: t =>
        if d = ascii '#' then
          if t = [] then none else (hexstr2binval format t).map fun r => (r.1, .binary, r.2)
        else if format = .ldapv2 ∧ d = ascii '"' then
          if t = [] then none else (quotedIA52strval t).map fun r => (r.1, .string, r.2)
        else (strval format (d :: t)).map fun r => (r.1, .string, r.2)

/-! ## RDNs and DNs -/

def readAva (format : Format) (t : List Octet) : Option (LDAPAVA × List Octet) :=
  (readType format t).bind fun type => (readValue format type.2).map fun v => (⟨type.1, v.1, v.2.1⟩, v.2.2)

/-- `ldap_bv2rdn_x` with its state `GOTAVA`. -/
def ldapBv2rdn (format : Format) : ℕ → List Octet → Option (LDAPRDN × List Octet)
  | 0, _ => none
  | n + 1, t => (readAva format t).bind fun a =>
      match a.2 with
      | [] => some ([a.1], [])
      | c :: rest =>
        if avaSep format c then (ldapBv2rdn format n rest).map fun r => (a.1 :: r.1, r.2) else some ([a.1], c :: rest)

/-- The loop of `ldap_bv2dn_x`. There are `behind` octets of the text behind `end`. -/
def readRdns (format : Format) (behind : ℕ) : ℕ → List Octet → Option LDAPDN
  | 0, _ => none
  | n + 1, t =>
    if t.length ≤ behind then none
    else
      (ldapBv2rdn format t.length t).bind fun r =>
        if r.2.length ≤ behind then some [r.1]
        else
          match r.2 with
          | [] => some [r.1]
          | c :: rest => if rdnSep format c then (readRdns format behind n rest).map (r.1 :: ·) else none

/-- `ldap_bv2dn_x`. An LDAPv2 text may be in brackets; the octets up to the NUL are still read. -/
def ldapBv2dn (format : Format) (t : List Octet) : Option LDAPDN :=
  match format with
  | .ldapv2 =>
    if t.head? = some (ascii '<') then
      if t.length < 2 ∨ t.getLast? ≠ some (ascii '>') then none
      else if t.length = 2 then some []
      else if 0 ∈ t then none
      else readRdns .ldapv2 1 t.length t.tail
    else if t = [] then some []
    else if 0 ∈ t then none
    else readRdns .ldapv2 0 t.length t
  | .dce =>
    match t with
    | [] => some []
    | c :: t => if 0 ∈ c :: t then none else if c ≠ ascii '/' then none else (readRdns .dce 0 (t.length + 1) t).map List.reverse

structure DceSafe (v : List Octet) : Prop where
  no_escape : backslash ∉ v
  lead : ∀ c ∈ v.head?, dnSpace c = false ∧ c ≠ ascii '#'
  trail : ∀ c ∈ v.getLast?, dnSpace c = false

theorem needEscapeDCE_spec {c : Octet} (h : needEscapeDCE c = true) : c ≠ backslash ∧ dnSpace c = false ∧ c ≠ ascii '#' := by
  simp only [needEscapeDCE, Bool.or_eq_true, decide_eq_true_eq] at h
  rcases h with (rfl | rfl) | rfl <;> decide

theorem strval_dceSafe {d : Octet} {t v rest : List Octet} (h : strval .dce (d :: t) = some (v, rest)) (hspace : dnSpace d = false)
    (hhash : d ≠ ascii '#') : DceSafe v := by
  obtain ⟨us, vs, ht, rfl, hfine, hstripped, -⟩ := Escape.read_spec h
  have hstripped := hstripped (by decide)
  have hus : ∀ t ∈ us, Escape.Fine backslash needEscapeDCE (valueEnd .dce) t := fun t ht => hfine t (mem_append_left vs ht)
  have hfirst : ∀ t us', us = t :: us' → dnSpace t.char = false ∧ t.char ≠ ascii '#' := by
    rintro t us' rfl
    cases t with
    | plain c =>
      simp only [cons_append, Escape.render_cons, Escape.Token.render, List.nil_append, List.cons.injEq] at ht
      rw [← ht.1]
      exact ⟨hspace, hhash⟩
    | escaped c => exact (needEscapeDCE_spec (hus _ mem_cons_self)).2
  refine ⟨?_, ?_, ?_⟩
  · intro hmem
    obtain ⟨t, ht, hchar⟩ := List.mem_map.mp hmem
    cases t with
    | plain c => exact (hus _ ht).1 hchar
    | escaped c => exact (needEscapeDCE_spec (hus _ ht)).1 hchar
  · intro c hc
    cases us with
    | nil => cases hc
    | cons t us =>
      obtain rfl := Option.some.inj hc
      exact hfirst t us rfl
  · intro c hc
    rcases eq_nil_or_concat us with rfl | ⟨xs, t, rfl⟩
    · cases hc
    rw [concat_eq_append] at hus hstripped hfirst hc
    simp only [Escape.chars, map_append, map_singleton, List.getLast?_concat, Option.mem_def, Option.some.injEq] at hc
    subst hc
    cases t with
    | escaped c =>
      have hok : needEscapeDCE c = true := hus (.escaped c) (by simp)
      exact (needEscapeDCE_spec hok).2.1
    | plain c =>
      by_contra hc
      have hxs := hstripped xs c rfl (by simpa [Escape.Token.char] using hc)
      subst hxs
      exact hc (hfirst _ _ rfl).1

theorem skipSpaces_head {t : List Octet} {c : Octet} {t' : List Octet} (h : skipSpaces t = c :: t') : dnSpace c = false := by
  have hhead := List.head?_dropWhile_not dnSpace t
  unfold skipSpaces at h
  rw [h] at hhead
  simpa using hhead

def Readable (rdn : LDAPRDN) : Prop := ∀ ava ∈ rdn, ava.la_flags = .string → DceSafe ava.la_value

theorem readValue_readable {t v rest : List Octet} {e : Encoding} (h : readValue .dce t = some (v, e, rest)) (he : e = .string) :
    DceSafe v := by
  subst he
  unfold readValue at h
  split at h
  · cases h
  · rename_i c t' _
    by_cases hc : c = ascii '='
    case neg =>
      rw [if_pos hc] at h
      cases h
    rw [if_neg (not_not.mpr hc)] at h
    split at h
    · rw [if_pos rfl] at h
      obtain ⟨rfl, -⟩ := Prod.mk.inj (Option.some.inj h)
      exact ⟨not_mem_nil, by simp, by simp⟩
    · rename_i d t' hskip
      by_cases hhash : d = ascii '#'
      · rw [if_pos hhash] at h
        split_ifs at h
        obtain ⟨r, -, h⟩ := Option.map_eq_some_iff.mp h
        cases h
      · rw [if_neg hhash, if_neg (by simp)] at h
        obtain ⟨r, hr, h⟩ := Option.map_eq_some_iff.mp h
        obtain ⟨rfl, h⟩ := Prod.mk.inj h
        exact strval_dceSafe hr (skipSpaces_head hskip) hhash

theorem ldapBv2rdn_readable {n : ℕ} {t rest : List Octet} {rdn : LDAPRDN} (h : ldapBv2rdn .dce n t = some (rdn, rest)) :
    Readable rdn := by
  induction n generalizing t rdn rest with
  | zero => cases h
  | succ n ih =>
    obtain ⟨⟨ava, rest'⟩, hava, h⟩ := Option.bind_eq_some_iff.mp h
    have hsafe : ava.la_flags = .string → DceSafe ava.la_value := by
      obtain ⟨type, -, hvalue⟩ := Option.bind_eq_some_iff.mp hava
      obtain ⟨v, hv, heq⟩ := Option.map_eq_some_iff.mp hvalue
      obtain ⟨rfl, -⟩ := Prod.mk.inj heq
      exact readValue_readable hv
    have hone : Readable [ava] := fun a ha => List.mem_singleton.mp ha ▸ hsafe
    split at h
    · obtain ⟨rfl, -⟩ := Prod.mk.inj (Option.some.inj h)
      exact hone
    · split_ifs at h
      · obtain ⟨r, hr, h⟩ := Option.map_eq_some_iff.mp h
        obtain ⟨rfl, -⟩ := Prod.mk.inj h
        exact List.forall_mem_cons.mpr ⟨hsafe, ih hr⟩
      · obtain ⟨rfl, -⟩ := Prod.mk.inj (Option.some.inj h)
        exact hone

theorem ldapBv2rdn_ne_nil {format : Format} {n : ℕ} {t rest : List Octet} {rdn : LDAPRDN}
    (h : ldapBv2rdn format n t = some (rdn, rest)) : rdn ≠ [] := by
  cases n with
  | zero => cases h
  | succ n =>
    obtain ⟨⟨ava, rest'⟩, -, h⟩ := Option.bind_eq_some_iff.mp h
    split at h
    · obtain ⟨rfl, -⟩ := Prod.mk.inj (Option.some.inj h)
      simp
    · split_ifs at h
      · obtain ⟨r, -, h⟩ := Option.map_eq_some_iff.mp h
        obtain ⟨rfl, -⟩ := Prod.mk.inj h
        simp
      · obtain ⟨rfl, -⟩ := Prod.mk.inj (Option.some.inj h)
        simp

section

variable {format : Format} {P : LDAPRDN → Prop} (hP : ∀ {n t rdn rest}, ldapBv2rdn format n t = some (rdn, rest) → P rdn)

include hP

theorem readRdns_forall {behind n : ℕ} {t : List Octet} {dn : LDAPDN} (h : readRdns format behind n t = some dn) :
    ∀ rdn ∈ dn, P rdn := by
  induction n generalizing t dn with
  | zero => cases h
  | succ n ih =>
    rw [readRdns] at h
    split_ifs at h
    obtain ⟨⟨rdn, rest⟩, hrdn, h⟩ := Option.bind_eq_some_iff.mp h
    have hone : ∀ r ∈ [rdn], P r := fun r hr => List.mem_singleton.mp hr ▸ hP hrdn
    split_ifs at h
    · obtain rfl := Option.some.inj h
      exact hone
    · split at h
      · obtain rfl := Option.some.inj h
        exact hone
      · split_ifs at h
        obtain ⟨dn', hdn, rfl⟩ := Option.map_eq_some_iff.mp h
        exact List.forall_mem_cons.mpr ⟨hP hrdn, ih hdn⟩

theorem ldapBv2dn_forall {t : List Octet} {dn : LDAPDN} (h : ldapBv2dn format t = some dn) : ∀ rdn ∈ dn, P rdn := by
  have hnil : ∀ rdn ∈ ([] : LDAPDN), P rdn := fun rdn hrdn => absurd hrdn not_mem_nil
  unfold ldapBv2dn at h
  cases format with
  | ldapv2 =>
    simp only at h
    split_ifs at h <;> first | exact Option.some.inj h ▸ hnil | exact readRdns_forall hP h
  | dce =>
    cases t with
    | nil => exact Option.some.inj h ▸ hnil
    | cons c t =>
      simp only at h
      split_ifs at h
      obtain ⟨dn', hdn, rfl⟩ := Option.map_eq_some_iff.mp h
      exact fun rdn hrdn => readRdns_forall hP hdn rdn (List.mem_reverse.mp hrdn)

end

theorem ldapBv2dn_readable {t : List Octet} {dn : LDAPDN} (h : ldapBv2dn .dce t = some dn) : ∀ rdn ∈ dn, Readable rdn :=
  ldapBv2dn_forall ldapBv2rdn_readable h

theorem ldapBv2dn_ne_nil {format : Format} {t : List Octet} {dn : LDAPDN} (h : ldapBv2dn format t = some dn) :
    ∀ rdn ∈ dn, rdn ≠ [] := ldapBv2dn_forall ldapBv2rdn_ne_nil h

end Getdn
end Libreldap
end ReOpenLDAP
