import ReOpenLDAP.Lib.Ascii

/-!
# Libreldap.DnText

DNs as lists of RDNs, and the texts that `ldap_dn2bv_x` writes for LDAPv2 and DCE.

No flag but the format is set.
-/

namespace ReOpenLDAP
namespace Libreldap
namespace Getdn

open Ascii

/-- `LDAP_AVA_STRING`, `LDAP_AVA_BINARY` and `LDAP_AVA_NONPRINTABLE` in `la_flags`. -/
inductive Encoding where
  | string
  | binary
  | nonprintable
deriving DecidableEq

/-- `LDAPAVA`. There is a NUL behind the value. -/
structure LDAPAVA where
  la_attr : List Octet
  la_value : List Octet
  la_flags : Encoding
deriving DecidableEq

abbrev LDAPRDN := List LDAPAVA

abbrev LDAPDN := List LDAPRDN

inductive Format where
  | ldapv2
  | dce
deriving DecidableEq

/-- `LDAP_DN_ASCII_SPACE` -/
def dnSpace (c : Octet) : Bool := c = ascii ' ' || c = 9 || c = NL || c = CR

def backslash : Octet := ascii '\\'

/-- `LDAP_DN_RDN_SEP_V2` -/
def rdnSepV2 (c : Octet) : Bool := c = ascii ',' || c = ascii ';'

/-- `LDAP_DN_NE` -/
def dnNe (c : Octet) : Bool := rdnSepV2 c || c = ascii '+' || c = ascii '"' || c = ascii '<' || c = ascii '>'

/-- `LDAP_DN_NEEDESCAPE` -/
def needEscape (c : Octet) : Bool := c = backslash || dnNe c

/-- `LDAP_DN_SHOULDESCAPE` -/
def shouldEscape (c : Octet) : Bool := c = ascii '='

/-- `LDAP_DN_NEEDESCAPE_LEAD` -/
def needEscapeLead (c : Octet) : Bool := c = backslash || dnNe c || c = ascii '=' || dnSpace c || c = ascii '#'

/-- `LDAP_DN_NEEDESCAPE_TRAIL` -/
def needEscapeTrail (c : Octet) : Bool := dnSpace c || needEscape c

/-- `LDAP_DN_NEEDESCAPE_DCE` -/
def needEscapeDCE (c : Octet) : Bool := c = ascii '/' || c = ascii ',' || c = ascii '='

def avaSep : Format → Octet → Bool
  | .ldapv2, c => c = ascii '+'
  | .dce, c => c = ascii ','

def rdnSep : Format → Octet → Bool
  | .ldapv2, c => rdnSepV2 c
  | .dce, c => c = ascii '/'

/-- `LDAP_DN_VALUE_END_V2`, `LDAP_DN_VALUE_END_DCE` -/
def valueEnd (format : Format) (c : Octet) : Bool := rdnSep format c || avaSep format c

def hexdig (n : ℕ) : Octet := Fin.ofNat 256 (if n < 10 then 48 + n else 55 + n)

def binval2hexstr (val : List Octet) : List Octet := val.flatMap fun c => [hexdig (c.val / 16), hexdig (c.val % 16)]

/-- What `p` runs over up to the NUL. -/
def cstring (val : List Octet) : List Octet := val.takeWhile (· ≠ 0)

def escapeIA5 (first last : Bool) (c : Octet) : Bool :=
  needEscape c || shouldEscape c || (first && needEscapeLead c) || (last && needEscapeTrail c)

def ia5Length (first : Bool) : List Octet → ℕ
  | [] => 0
  | c :: val => (if escapeIA5 first val.isEmpty c then 2 else 1) + ia5Length false val

def ia5Text (first : Bool) : List Octet → List Octet
  | [] => []
  | c :: val => (if escapeIA5 first val.isEmpty c then [backslash, c] else [c]) ++ ia5Text false val

def dceLength : List Octet → ℕ
  | [] => 0
  | c :: val => (if needEscapeDCE c then 2 else 1) + dceLength val

def dceText : List Octet → List Octet
  | [] => []
  | c :: val => (if needEscapeDCE c then [backslash, c] else [c]) ++ dceText val

def strval2IA5strlen (flags : Encoding) (val : List Octet) : Option ℕ :=
  if val = [] then some 0 else if flags = .nonprintable then none else some (ia5Length true (cstring val))

def strval2IA5str (flags : Encoding) (val : List Octet) : Option (List Octet) :=
  if val = [] then some [] else if flags = .nonprintable then none else some (ia5Text true val)

def strval2DCEstrlen (flags : Encoding) (val : List Octet) : Option ℕ :=
  if val = [] then some 0 else if flags = .nonprintable then none else some (dceLength (cstring val))

def strval2DCEstr (flags : Encoding) (val : List Octet) : Option (List Octet) :=
  if val = [] then some [] else if flags = .nonprintable then none else some (dceText val)

def strvalLength : Format → Encoding → List Octet → Option ℕ
  | .ldapv2 => strval2IA5strlen
  | .dce => strval2DCEstrlen

def strvalText : Format → Encoding → List Octet → Option (List Octet)
  | .ldapv2 => strval2IA5str
  | .dce => strval2DCEstr

def avaLength (format : Format) (ava : LDAPAVA) : Option ℕ :=
  if ava.la_flags = .binary then some (1 + 2 * ava.la_value.length) else strvalLength format ava.la_flags ava.la_value

def avaText (format : Format) (ava : LDAPAVA) : Option (List Octet) :=
  if ava.la_flags = .binary then some (ascii '#' :: binval2hexstr ava.la_value)
  else strvalText format ava.la_flags ava.la_value

/-- `rdn2strlen`, `rdn2DCEstrlen`: type, `=` and a separator for each value. -/
def rdn2strlen (format : Format) : LDAPRDN → Option ℕ
  | [] => some 0
  | ava :: rdn => (avaLength format ava).bind fun vl => (rdn2strlen format rdn).map fun l => ava.la_attr.length + 2 + vl + l

/-- `rdn2str`: the separator is behind each value, `,` behind the last one. -/
def rdn2str : LDAPRDN → Option (List Octet)
  | [] => some []
  | ava :: rdn => (avaText .ldapv2 ava).bind fun v => (rdn2str rdn).map fun t =>
      ava.la_attr ++ ascii '=' :: v ++ (if rdn = [] then ascii ',' else ascii '+') :: t

/-- `rdn2DCEstr`, not at the start of a text: the separator is in front of each value, `/` in front of the first one. -/
def rdn2DCEstr (head : Bool) : LDAPRDN → Option (List Octet)
  | [] => some []
  | ava :: rdn => (avaText .dce ava).bind fun v => (rdn2DCEstr false rdn).map fun t =>
      (if head then ascii '/' else ascii ',') :: ava.la_attr ++ ascii '=' :: v ++ t

def joined (sep : Octet) : List (List Octet) → List Octet
  | [] => []
  | [t] => t
  | t :: u :: ts => t ++ sep :: joined sep (u :: ts)

/-- What is allocated for, what is written, and `bv`. -/
structure Dn2bv where
  len : ℕ
  written : List Octet
  bv_val : List Octet
deriving DecidableEq

def sumLengths (format : Format) : LDAPDN → Option ℕ
  | [] => some 0
  | rdn :: dn => (rdn2strlen format rdn).bind fun l => (sumLengths format dn).map fun len => l + len

def concatTexts (f : LDAPRDN → Option (List Octet)) : LDAPDN → Option (List Octet)
  | [] => some []
  | rdn :: dn => (f rdn).bind fun t => (concatTexts f dn).map fun ts => t ++ ts

/-- `ldap_dn2bv_x`: LDAPv2 from the first RDN on and without the last separator, DCE from the last RDN on.
When there is no separator to leave out, `len - 1` is no length. -/
def ldapDn2bv (format : Format) (dn : LDAPDN) : Option Dn2bv :=
  if dn = [] then some ⟨0, [], []⟩
  else
    (sumLengths format dn).bind fun len =>
      match format with
      | .ldapv2 =>
        if len = 0 then none else (concatTexts rdn2str dn).map fun t => ⟨len, t, t.take (len - 1)⟩
      | .dce => (concatTexts (rdn2DCEstr true) dn.reverse).map fun t => ⟨len, t, t.take len⟩

end Getdn
end Libreldap
end ReOpenLDAP
