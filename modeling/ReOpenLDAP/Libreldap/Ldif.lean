import Mathlib.Data.List.Infix
import ReOpenLDAP.Libreldap.Base64

/-!
# Libreldap.Ldif

Lines of LDIF.

A text has no `'\0'`. What a function writes to is the text in front of the place it returns.
-/

namespace ReOpenLDAP
namespace Libreldap

open Ascii

def LDIF_LINE_WIDTH : ℕ := 76

def LDIF_KLUDGE : ℕ := 2

def LDIF_BASE64_LEN (len : ℕ) : ℕ := len * 4 / 3 + 3

def LDIF_SIZE_NEEDED (nlen vlen : ℕ) : ℕ :=
  nlen + 4 + LDIF_BASE64_LEN vlen + (LDIF_BASE64_LEN vlen + nlen + 3) / (LDIF_LINE_WIDTH - 1) * 2

def CONTINUED_LINE_MARKER : Octet := CR

def SP : Octet := 32

def COLON : Octet := 58

def LESS : Octet := 60

def HASH : Octet := 35

/-- `LDIF_PUT_VALUE` and the others. -/
inductive Put where
  | novalue
  | value
  | text
  | binary
  | b64
  | comment
  | url
  | sep
deriving DecidableEq

/-- Characters behind a line of the length `len`. -/
def fold (wrap : ℕ) : ℕ → List Octet → List Octet
  | _, [] => []
  | len, c :: cs => if wrap ≤ len then NL :: SP :: c :: fold wrap 2 cs else c :: fold wrap (len + 1) cs

def foldText (wrap : ℕ) : ℕ → List Octet → List Octet
  | _, [] => []
  | len, c :: cs => if wrap < len then NL :: SP :: c :: foldText wrap 2 cs else c :: foldText wrap (len + 1) cs

/-- An attribute type of `must_b64_encode`. -/
structure MustB64Encode where
  name : List Octet
  oid : List Octet

def defaultMustB64Encode : List MustB64Encode := [⟨Ascii.text "userPassword", Ascii.text "2.5.4.35"⟩]

def ldifMustB64Encode (registered : List MustB64Encode) (s : List Octet) : Bool :=
  registered.any fun m => CaseEq m.name s || m.oid = s

def plainValue (registered : List MustB64Encode) (name val : List Octet) : Bool :=
  match val.head?, val.getLast? with
  | some first, some last =>
    isGraph first && first ≠ COLON && first ≠ LESS && isGraph last && !decide (Ascii.text ";binary" <:+: name) &&
      !ldifMustB64Encode registered name && val.all isPrint
  | _, _ => false

/-- `ldif_sput_wrap`. A name that is none is the null pointer of a comment. -/
def ldifSputWrap (registered : List MustB64Encode) (type : Put) (name : Option (List Octet)) (val : List Octet) (wrap : ℕ) : List Octet :=
  let wrap := if wrap = 0 then LDIF_LINE_WIDTH + LDIF_KLUDGE else wrap
  let comment := if type = .comment then HASH :: (if val = [] then [] else [SP]) else []
  if type = .sep then [NL]
  else
    let out := comment ++ (match name with
      | none => []
      | some name => name ++ if type = .comment then [] else [COLON])
    if val = [] then out ++ [NL]
    else
      match type with
      | .novalue => out ++ [NL]
      | .url => out ++ LESS :: SP :: foldText wrap (out.length + 2) val ++ [NL]
      | .b64 => out ++ COLON :: SP :: foldText wrap (out.length + 2) val ++ [NL]
      | .text => out ++ SP :: foldText wrap (out.length + 1) val ++ [NL]
      | .comment => out ++ foldText wrap out.length val ++ [NL]
      | type =>
        if type = .value ∧ plainValue registered (name.getD []) val then out ++ SP :: fold wrap (out.length + 1) val ++ [NL]
        else out ++ COLON :: SP :: fold wrap (out.length + 2) (encodeB64 val) ++ [NL]

def ldifCountlines : List Octet → ℕ
  | [] => 0
  | c :: buf => (if c = NL ∧ buf.head? ≠ some SP then 1 else 0) + ldifCountlines buf

def takeLine : List Octet → List Octet × Option (List Octet)
  | [] => ([], none)
  | c :: next =>
    if c ≠ NL then
      let (line, rest) := takeLine next
      (c :: line, rest)
    else
      match next with
      | [] => ([], some [])
      | d :: next' =>
        if d = SP then
          let (line, rest) := takeLine next'
          (CONTINUED_LINE_MARKER :: CONTINUED_LINE_MARKER :: line, rest)
        else if d = CR ∧ next'.head? = some NL then ([], some next')
        else ([], some (d :: next'))

theorem takeLine_cons {c : Octet} (hc : c ≠ NL) (next : List Octet) :
    takeLine (c :: next) = (c :: (takeLine next).1, (takeLine next).2) := by
  rw [takeLine.eq_def]
  simp only [if_pos hc]

theorem takeLine_continued (next : List Octet) : takeLine (NL :: SP :: next) =
    (CONTINUED_LINE_MARKER :: CONTINUED_LINE_MARKER :: (takeLine next).1, (takeLine next).2) := by
  rw [takeLine.eq_def]
  rfl

theorem takeLine_length {buf rest : List Octet} (h : (takeLine buf).2 = some rest) : rest.length < buf.length := by
  fun_induction takeLine buf with
  | case1 => cases h
  | case2 c next hc line rest' hline ih =>
    have := ih (by rw [hline]; exact h)
    rw [List.length_cons]
    omega
  | case3 c hc =>
    obtain rfl := Option.some.inj h
    simp
  | case4 c hc next' line rest' hline ih =>
    have := ih (by rw [hline]; exact h)
    simp only [List.length_cons]
    omega
  | case5 c hc d next' hd hcr =>
    obtain rfl := Option.some.inj h
    simp only [List.length_cons]
    omega
  | case6 c hc d next' hd hcr =>
    obtain rfl := Option.some.inj h
    simp only [List.length_cons]
    omega

/-- `ldif_getline`: the line and the new `*next`; none at the end of the text or of an entry. -/
def ldifGetline : Option (List Octet) → Option (List Octet × Option (List Octet))
  | none => none
  | some next =>
    if next = [] ∨ next.head? = some NL then none
    else if next.head? = some HASH then
      match _h : (takeLine next).2 with
      | none => none
      | some rest => ldifGetline (some rest)
    else some (takeLine next)
termination_by next => (next.getD []).length
decreasing_by exact takeLine_length _h

theorem getline_next {next next' : Option (List Octet)} {line : List Octet} (h : ldifGetline next = some (line, next')) :
    (next'.map (·.length + 1)).getD 0 < (next.map (·.length + 1)).getD 0 := by
  fun_induction ldifGetline next with
  | case1 => cases h
  | case2 => cases h
  | case3 => cases h
  | case4 next hend hhash rest hrest ih =>
    have hlt := takeLine_length hrest
    have := ih h
    simp only [Option.map_some, Option.getD_some] at this ⊢
    omega
  | case5 next hend hhash =>
    have hline := congrArg Prod.snd (Option.some.inj h)
    simp only at hline
    subst hline
    cases hrest : (takeLine next).2 with
    | none => simp
    | some rest =>
      have hlt := takeLine_length hrest
      simp only [Option.map_some, Option.getD_some]
      omega

/-- What `ldif_parse_line2` leaves in its arguments. A value is none if its pointer is null. -/
structure Parsed where
  type : List Octet
  value : Option (List Octet)
  freeval : Bool
  /-- The function returns 0. -/
  ok : Bool
deriving DecidableEq

/-- `(int)` -/
def castInt (n : ℕ) : ℤ := (n : ℤ).bmod (2 ^ 32)

/-- A string of this length is what `bv_len = (int)(d - s)` says; none if that is behind its end. -/
def intLength (s : List Octet) : Option (List Octet) :=
  if 0 ≤ castInt s.length ∧ castInt s.length ≤ s.length then some (s.take (castInt s.length).toNat) else none

/-- The space between type and `:`, from the end; the first character stays. -/
def trimType (type : List Octet) : List Octet :=
  match type with
  | [] => []
  | c :: cs => c :: (cs.reverse.dropWhile isSpace).reverse ++ List.replicate (cs.reverse.takeWhile isSpace).length 0

/-- `ldif_parse_line2` in place. `fetchUrl` is `ldif_fetch_url`. None if the length of the value is no `int`. -/
def ldifParseLine2 (fetchUrl : List Octet → Option (List Octet)) (line : List Octet) : Option Parsed :=
  let line := line.dropWhile isSpace
  let s := line.dropWhile (· ≠ COLON)
  if s = [] then some ⟨[], none, false, false⟩
  else
    let type := trimType (line.takeWhile (· ≠ COLON))
    let s := s.tail
    let url := s.head? = some LESS
    let b64 := s.head? = some COLON
    let s := if url ∨ b64 then s.tail else s
    let s := (s.dropWhile isSpace).filter (· ≠ CONTINUED_LINE_MARKER)
    if b64 then
      if s = [] then some ⟨type, none, false, false⟩
      else
        let (value, ok) := decodeB64 s
        some ⟨type, some value, false, ok⟩
    else if url then
      if s = [] then some ⟨type, none, false, false⟩
      else
        match fetchUrl s with
        | none => some ⟨type, none, false, false⟩
        | some value => some ⟨type, some value, true, true⟩
    else (intLength s).map fun value => ⟨type, some value, false, true⟩

end Libreldap
end ReOpenLDAP
