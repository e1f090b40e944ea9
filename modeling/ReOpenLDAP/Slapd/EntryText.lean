import ReOpenLDAP.Libreldap.Ldif
import ReOpenLDAP.Slapd.SortVals

/-!
# Slapd.EntryText

The text of an entry: `entry2str` and `str2entry`.

An `Error.wild` is where the code computes an address or a length outside of the object.
-/

namespace ReOpenLDAP
namespace Slapd
namespace EntryText

open Ascii Libreldap SortVals

def LDAP_INVALID_SYNTAX : ℕ := 0x15

/-- `ad_keystring`: 0 is true here. -/
def adKeystring (rangeHack : Bool) : List Octet → Bool
  | [] => false
  | c :: cs => isAlnum c && cs.all fun d => isAlnum d || d = ascii '-' || d = ascii '.' || d = ascii ';' || (rangeHack && d = ascii '=')

/-- What the code takes from the schema; `δ` are the attribute descriptions. -/
structure Schema (δ : Type*) where
  /-- `msad_range_hack` -/
  rangeHack : Bool
  /-- `slapMode` is that of a tool that writes. -/
  wtool : Bool
  /-- `ad_cname` -/
  cname : δ → List Octet
  /-- `slap_bv2ad` behind its checks of the string. -/
  findAd : List Octet → Except ℕ δ
  findAd_case : ∀ a b, CaseEq a b → findAd a = findAd b
  /-- The description of `si_at_undefined` with the name. -/
  undefAd : List Octet → δ
  undefAd_case : ∀ a b, CaseEq a b → undefAd a = undefAd b
  /-- `slap_syntax_is_binary` -/
  syntaxBinary : δ → Bool
  /-- `slap_ad_is_binary` -/
  adBinary : δ → Bool
  /-- `SLAP_AT_SORTED_VAL` -/
  sortedVal : δ → Bool
  /-- `ordered_value_normalize` with the equality rule, if that has a normalizer. -/
  normalize : δ → Option (List Octet → Except ℕ (List Octet))
  /-- `ordered_value_match` with the equality rule. -/
  valueMatch : δ → List Octet → List Octet → ℕ × Ordering
  dnPrettyNormal : List Octet → Except ℕ (List Octet × List Octet)

/-- `Attribute`. `nvals` is none if `a_nvals` is `a_vals`. -/
structure Attribute (δ : Type*) where
  desc : δ
  vals : List (List Octet)
  nvals : Option (List (List Octet))
  /-- `SLAP_ATTR_SORTED_VALS` -/
  sorted : Bool

/-- `Entry`. A name is none if its pointer is null. -/
structure Entry (δ : Type*) where
  name : Option (List Octet)
  nname : Option (List Octet)
  attrs : List (Attribute δ)

/-! ## Writing -/

def GRABSIZE : ℕ := 8192

/-- `MAKE_SPACE` with `used` bytes in the buffer: `emaxsize`, an `int` like the offset. -/
def makeSpace (n used emaxsize : ℕ) : Option ℕ :=
  if used + n ≤ emaxsize then some emaxsize
  else if castInt used ≠ used ∨ castInt (emaxsize + GRABSIZE) ≠ (emaxsize + GRABSIZE : ℕ) then none
  else makeSpace n used (emaxsize + GRABSIZE)
termination_by used + n - emaxsize
decreasing_by
  simp only [GRABSIZE]
  omega

/-- The text so far, and `emaxsize`. -/
structure Buffer where
  out : List Octet
  emaxsize : ℕ

/-- A line into the buffer; none if that is too small. What a line gets to before it turns out to need base 64 is no longer. -/
def putLine (registered : List MustB64Encode) (wrap : ℕ) (b : Buffer) (name val : List Octet) : Option Buffer :=
  match makeSpace (LDIF_SIZE_NEEDED name.length val.length) b.out.length b.emaxsize with
  | none => none
  | some emaxsize =>
    let out := b.out ++ ldifSputWrap registered .value (some name) val wrap
    if out.length ≤ emaxsize then some ⟨out, emaxsize⟩ else none

def entryLines {δ : Type*} (S : Schema δ) (e : Entry δ) : List (List Octet × List Octet) :=
  (e.name.map fun dn => (text "dn", dn)).toList ++ e.attrs.flatMap fun a => a.vals.map fun v => (S.cname a.desc, v)

/-- `entry2str_wrap`: the text, and `*len`. The buffer is there from earlier calls. -/
def entry2strWrap {δ : Type*} (S : Schema δ) (registered : List MustB64Encode) (emaxsize : ℕ) (e : Entry δ) (wrap : ℕ) :
    Option (List Octet × ℤ) :=
  match (entryLines S e).foldlM (fun b p => putLine registered wrap b p.1 p.2) ⟨[], emaxsize⟩ with
  | none => none
  | some b => (makeSpace 1 b.out.length b.emaxsize).map fun _ => (b.out, castInt b.out.length)

def entry2str {δ : Type*} (S : Schema δ) (registered : List MustB64Encode) (emaxsize : ℕ) (e : Entry δ) : Option (List Octet × ℤ) :=
  entry2strWrap S registered emaxsize e LDIF_LINE_WIDTH

inductive Error where
  | rc (code : ℕ)
  | wild
deriving DecidableEq

/-- `type[i]` and `vals[i]`. -/
structure Line where
  type : List Octet
  value : Option (List Octet)
deriving DecidableEq

section

variable {δ : Type*} (S : Schema δ) (fetchUrl : List Octet → Option (List Octet))

/-- The loop that parses the lines, with those before `i`, and the DN. -/
def readLines (lines : ℕ) (next : Option (List Octet)) (before : List Line) (dn : Option (List Octet × List Octet)) :
    Except Error (List Line × Option (List Octet × List Octet)) :=
  match _h : ldifGetline next with
  | none => .ok (before, dn)
  | some (s, next) =>
    if s = [] ∨ s.head? = some NL then .ok (before, dn)
    else if lines ≤ before.length then .error (.rc LDAP_INVALID_SYNTAX)
    else
      match ldifParseLine2 fetchUrl s with
      | none => .error .wild
      | some p =>
        -- the line stays if it has an error
        if p.ok = false then readLines lines next (before ++ [⟨p.type, p.value⟩]) dn
        else if CaseEq p.type (text "dn") then
          match dn with
          | some _ => .error (.rc LDAP_INVALID_SYNTAX)
          | none =>
            match S.dnPrettyNormal (p.value.getD []) with
            | .error rc => .error (.rc rc)
            | .ok names => readLines lines next before (some names)
        else readLines lines next (before ++ [⟨p.type, p.value⟩]) dn
termination_by (next.map (·.length + 1)).getD 0
decreasing_by all_goals exact getline_next _h

/-- The line `j` goes behind the line `i` and takes its type. -/
def moveUp (ls : List Line) (i j : ℕ) : List Line :=
  match ls[i]?, ls[j]? with
  | some a, some b => (ls.eraseIdx j).insertIdx (i + 1) ⟨a.type, b.value⟩
  | _, _ => ls

def sameType (ls : List Line) (i j : ℕ) : Bool :=
  match ls[i]?, ls[j]? with
  | some a, some b => CaseEq a.type b.type
  | _, _ => false

/-- The inner loop, with `m` lines from `j` on. The outer one goes on at the new `i`. -/
def gatherFrom : (m i j : ℕ) → List Line → List Line × ℕ
  | 0, i, _, ls => (ls, i)
  | m + 1, i, j, ls =>
    if sameType ls i j then gatherFrom m (i + 1) (j + 1) (if j ≠ i + 1 then moveUp ls i j else ls)
    else gatherFrom m i (j + 1) ls

def gather : (rounds i : ℕ) → List Line → List Line
  | 0, _, ls => ls
  | rounds + 1, i, ls =>
    if i < ls.length then
      let (ls, i) := gatherFrom (ls.length - (i + 1)) i (i + 1) ls
      gather rounds (i + 1) ls
    else ls

/-- `slap_bv2ad`, and `slap_bv2undef_ad` where that fails. -/
def str2ad (name : List Octet) : Except Error δ :=
  let known := if name = [] ∨ adKeystring S.rangeHack name = false then .error LDAP_INVALID_SYNTAX else S.findAd name
  match known with
  | .ok ad => .ok ad
  | .error rc =>
    if S.wtool then .error (.rc rc)
    else if name = [] ∨ adKeystring S.rangeHack name = false then .error (.rc LDAP_INVALID_SYNTAX)
    else .ok (S.undefAd name)

/-- The description of a line behind one with the description `ad`. -/
def lineAd (ad : Option δ) (type : List Octet) : Except Error δ :=
  let fresh :=
    match str2ad S type with
    | .error e => .error e
    | .ok ad => if S.syntaxBinary ad && !S.adBinary ad then .error (.rc LDAP_INVALID_SYNTAX) else .ok ad
  match ad with
  | none => fresh
  | some ad => if CaseEq type (S.cname ad) then .ok ad else fresh

def closeAttr (ad : δ) (vals nvals : List (List Octet)) : Except Error (Attribute δ) :=
  let nvals := if (S.normalize ad).isSome then some nvals else none
  if S.sortedVal ad then
    match slapSortVals (S.valueMatch ad) true vals.get (nvals.map fun nvals (i : Fin vals.length) => nvals.getD i []) with
    | .error _ => .error .wild
    | .ok r =>
      if r.rc = LDAP_TYPE_OR_VALUE_EXISTS then .error (.rc LDAP_TYPE_OR_VALUE_EXISTS)
      else .ok ⟨ad, List.ofFn r.vals, r.nvals.map List.ofFn, r.rc = 0⟩
  else .ok ⟨ad, vals, nvals, false⟩

/-- A value of `ad`, and `nvals` with its normalized value if there is one. -/
def pushValue (ad : δ) (value : Option (List Octet)) (nvals : List (List Octet)) : Except Error (List Octet × List (List Octet)) :=
  match value with
  | none => .error (.rc LDAP_INVALID_SYNTAX)
  | some v =>
    match S.normalize ad with
    | none => .ok (v, nvals)
    | some f =>
      match f v with
      | .error rc => .error (.rc rc)
      | .ok n => .ok (v, nvals ++ [n])

variable [DecidableEq δ]

/-- The loop over the lines: `ad`, the values of the run, and the attributes before it. -/
def attrLoop : List Line → (ad : Option δ) → (vals nvals : List (List Octet)) → (attrs : List (Attribute δ)) → Except Error (List (Attribute δ))
  | [], none, _, _, attrs => .ok attrs
  | [], some ad, vals, nvals, attrs => (closeAttr S ad vals nvals).map fun a => attrs ++ [a]
  | line :: lines, adPrev, vals, nvals, attrs =>
    match lineAd S adPrev line.type with
    | .error e => .error e
    | .ok ad =>
      match adPrev with
      | none =>
        match pushValue S ad line.value nvals with
        | .error e => .error e
        | .ok (v, nvals) => attrLoop lines (some ad) (vals ++ [v]) nvals attrs
      | some prev =>
        if ad ≠ prev then
          match closeAttr S prev vals nvals with
          | .error e => .error e
          | .ok a =>
            match pushValue S ad line.value [] with
            | .error e => .error e
            | .ok (v, nvals) => attrLoop lines (some ad) [v] nvals (attrs ++ [a])
        else
          match pushValue S ad line.value nvals with
          | .error e => .error e
          | .ok (v, nvals) => attrLoop lines (some ad) (vals ++ [v]) nvals attrs

/-- `str2entry2` of the string at `s`. -/
def str2entry2 (s : List Octet) (checkvals : Bool) : Except Error (Entry δ) :=
  let s := s.takeWhile (· ≠ 0)
  match readLines S fetchUrl (ldifCountlines s) (some s) [] none with
  | .error e => .error e
  | .ok (_, none) => .error (.rc LDAP_INVALID_SYNTAX)
  | .ok (lines, some (name, nname)) =>
    let lines := if checkvals then gather lines.length 0 lines else lines
    (attrLoop S lines none [] [] []).map fun attrs => ⟨some name, some nname, attrs⟩

def str2entry (s : List Octet) : Except Error (Entry δ) := str2entry2 S fetchUrl s true

end

end EntryText
end Slapd
end ReOpenLDAP
