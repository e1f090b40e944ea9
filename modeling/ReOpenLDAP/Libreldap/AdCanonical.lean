import ReOpenLDAP.Libreldap.DnText
import ReOpenLDAP.Slapd.Utf8String

/-!
# Libreldap.AdCanonical

DNs in the format `LDAP_DN_FORMAT_AD_CANONICAL`, such as `microsoft.com/People/Bill,Gates`.

A result is `refused` when the function does not return `LDAP_SUCCESS`. It is `undefined` when octets behind the NUL of a
value are read, or `memcpy` copies to where it copies from.
-/

namespace ReOpenLDAP
namespace Libreldap
namespace Getdn

open Ascii Slapd.Utf8

inductive Trap where
  | refused
  | undefined
deriving DecidableEq

/-- `LDAP_DN_NEEDESCAPE_AD` -/
def needEscapeAD (c : Octet) : Bool := c = ascii '/' || c = ascii ',' || c = ascii '='

/-- The loop of `strval2ADstrlen`, `k` octets in front of the next character. -/
def adLength : ℕ → List Octet → Except Trap ℕ
  | _, [] => .error .undefined
  | k + 1, _ :: p => adLength k p
  | 0, c :: p =>
    if c = 0 then .ok 0
    else
      match charlen2 (c :: p) with
      | none => .error .undefined
      | some 0 => .error .refused
      | some (cl + 1) => (adLength cl p).map ((if cl = 0 ∧ needEscapeAD c = true then 2 else cl + 1) + ·)

def strval2ADstrlen (val : List Octet) : Except Trap ℕ := if val = [] then .ok 0 else adLength 0 (val ++ [0])

/-- The loop of `strval2ADstr`, `k` octets in front of the next character. The last one may take the NUL with it. -/
def adStr : ℕ → List Octet → Except Trap (List Octet)
  | 0, [] => .ok []
  | 1, [] => .ok [0]
  | _ + 2, [] => .error .undefined
  | k + 1, c :: val => (adStr k val).map (c :: ·)
  | 0, c :: val =>
    match charlen2 (c :: val ++ [0]) with
    | none => .error .undefined
    | some 0 => .error .refused
    | some (cl + 1) => (adStr cl val).map ((if cl = 0 ∧ needEscapeAD c = true then [backslash, c] else [c]) ++ ·)

def strval2ADstr (val : List Octet) : Except Trap (List Octet) := adStr 0 val

def adAvaLength (ava : LDAPAVA) : Except Trap ℕ :=
  if ava.la_flags = .binary then .ok (1 + 2 * ava.la_value.length) else strval2ADstrlen ava.la_value

def adAvaText (ava : LDAPAVA) : Except Trap (List Octet) :=
  if ava.la_flags = .binary then .ok (ascii '#' :: binval2hexstr ava.la_value) else strval2ADstr ava.la_value

def rdn2ADstrlen : LDAPRDN → Except Trap ℕ
  | [] => .ok 0
  | ava :: rdn => (adAvaLength ava).bind fun vl => (rdn2ADstrlen rdn).map fun l => 1 + vl + l

/-- `rdn2ADstr`, with what stands in front of the first value. -/
def rdn2ADstr (sep : List Octet) : LDAPRDN → Except Trap (List Octet)
  | [] => .ok []
  | ava :: rdn => (adAvaText ava).bind fun v => (rdn2ADstr [ascii ','] rdn).map fun t => sep ++ v ++ t

/-- `LDAP_DN_IS_RDN_DC` -/
def isRdnDC : LDAPRDN → Bool
  | [ava] => ava.la_flags ≠ .binary && ava.la_attr.map toLower = text "dc"
  | _ => false

/-- `ldif_is_not_printable`: nothing, or something that LDIF has in base 64. -/
def notPrintable (val : List Octet) : Bool :=
  !(val.head?.any (fun c => isGraph c && c ≠ ascii ':' && c ≠ ascii '<') && val.getLast?.any isGraph &&
    (cstring val).all isPrint)

/-- `rdn[0]->la_value` -/
def firstValue : LDAPRDN → List Octet
  | [] => []
  | ava :: _ => ava.la_value

/-- The loop of `dn2domain`, from the last RDN on: whether there is a domain, its text, and the RDNs that are left. -/
def dn2domain (str : List Octet) (domain first : Bool) : LDAPDN → Except Trap (Bool × List Octet × LDAPDN)
  | [] => .ok (domain, str, [])
  | rdn :: dn =>
    if isRdnDC rdn = false then .ok (domain, str, rdn :: dn)
    else if notPrintable (firstValue rdn) then .ok (false, str, rdn :: dn)
    else if first then dn2domain (firstValue rdn) true false dn
    else if (firstValue rdn).length < str.length then .error .undefined
    else dn2domain (firstValue rdn ++ ascii '.' :: str) true false dn

def adLengths : LDAPDN → Except Trap ℕ
  | [] => .ok 0
  | rdn :: dn => (rdn2ADstrlen rdn).bind fun l => (adLengths dn).map fun len => l + len

def adTexts (sep : List Octet) : LDAPDN → Except Trap (List Octet)
  | [] => .ok []
  | rdn :: dn => (rdn2ADstr sep rdn).bind fun t => (adTexts [ascii '/'] dn).map fun ts => t ++ ts

/-- What is predicted, what is written, and whether a `/` is put behind what was predicted. -/
structure AdBv where
  len : ℕ
  written : List Octet
  trailing_slash : Bool
deriving DecidableEq

def AdBv.slash (bv : AdBv) : List Octet := if bv.trailing_slash then [ascii '/'] else []

/-- `bv->bv_val`, as far as it was written. -/
def AdBv.bv_val (bv : AdBv) : List Octet := bv.written.take bv.len ++ bv.slash

/-- `ldap_dn2bv_x`. A DN of one RDN is not looked at by `dn2domain`. -/
def adDn2bv (pedantic : Bool) (dn : LDAPDN) : Except Trap AdBv :=
  if dn = [] then .ok ⟨0, [], false⟩
  else
    (adLengths dn).bind fun len =>
      (if dn.length = 1 then .ok (false, [], dn.reverse) else dn2domain [] false true dn.reverse).bind fun r =>
        if r.1 then (adTexts [ascii '/'] r.2.2).map fun t => ⟨len - 1, r.2.1 ++ t, r.2.2.isEmpty⟩
        else if pedantic then .error .refused
        else (adTexts [] r.2.2).map fun t => ⟨len - 1, t, true⟩

def isDomain (rdn : LDAPRDN) : Bool := isRdnDC rdn && !notPrintable (firstValue rdn)

def adText (dn : LDAPDN) : Except Trap (List Octet) :=
  let domain := dn.reverse.takeWhile isDomain
  let others := dn.reverse.dropWhile isDomain
  (domain.mapM (rdn2ADstr [])).bind fun ds =>
    (adTexts (if domain = [] then [] else [ascii '/']) others).map fun t => joined (ascii '.') ds.reverse ++ t

/-- The function fails, or every octet of the result is one of the text that should be written. -/
def Canonical (pedantic : Bool) (dn : LDAPDN) : Prop :=
  adDn2bv pedantic dn = .error .refused ∨
    ∃ bv t, adDn2bv pedantic dn = .ok bv ∧ adText dn = .ok t ∧ bv.written.length = bv.len ∧ bv.bv_val = t ++ bv.slash

end Getdn
end Libreldap
end ReOpenLDAP
