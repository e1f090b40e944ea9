import ReOpenLDAP.Libreldap.Ldif

/-!
# Libreldap.LdifRecord

`ldap_parse_ldif_record_x`: from the text of a record to a request.

An `Error.wild` is where the code writes outside of a block, or compares a string that is a null pointer.
-/

namespace ReOpenLDAP
namespace Libreldap
namespace LdifRecord

open Ascii

def LDAP_PARAM_ERROR : ℤ := -9

def LDAP_REQ_ADD : ℕ := 0x68

def LDAP_REQ_MODIFY : ℕ := 0x66

def LDAP_REQ_DELETE : ℕ := 0x4a

def LDAP_REQ_MODDN : ℕ := 0x6c

def LDAP_MOD_ADD : ℕ := 0

def LDAP_MOD_DELETE : ℕ := 1

def LDAP_MOD_REPLACE : ℕ := 2

def LDAP_MOD_INCREMENT : ℕ := 3

def LDAP_MOD_BVALUES : ℕ := 0x80

def M_SEP : ℕ := 0x7f

inductive Error where
  | rc (code : ℤ)
  | wild
deriving DecidableEq

/-- `LDIF_DEFAULT_ADD`, `LDIF_ENTRIES_ONLY` and `LDIF_NO_CONTROLS`. -/
structure Flags where
  defaultAdd : Bool
  entriesOnly : Bool
  noControls : Bool
deriving DecidableEq

/-- `lr_btype[i]`, `lr_vals[i]` and `lr_freeval[i]`. A null pointer has the length 0. -/
structure Slot where
  btype : Option (List Octet)
  val : Option (List Octet)
  freeval : Bool
deriving DecidableEq

def cstr (s : List Octet) : List Octet := s.takeWhile (· ≠ 0)

def bvCasematch (a b : Option (List Octet)) : Except Error Bool :=
  if (a.getD []).length ≠ (b.getD []).length then .ok false
  else
    match a, b with
    | some a, some b => .ok (CaseEq (cstr a) (cstr b))
    | _, _ => .error .wild

/-- `BV_CASEMATCH` with one of the words, which are not empty. -/
def isWord (a : Option (List Octet)) (word : String) : Bool :=
  match a with
  | none => false
  | some a => a.length = (text word).length && CaseEq (cstr a) (text word)

def slotAt (slots : List Slot) (i : ℕ) : Slot := slots.getD i ⟨none, none, false⟩

section

variable (fetchUrl : List Octet → Option (List Octet))

/-- The loop that reads the lines, with those before `i`; `dn` has the value and `idn`. -/
def readLines (linenum lines : ℕ) (next : Option (List Octet)) (before : List Slot) (dn : Option (Option (List Octet) × ℕ))
    (version : Bool) : Except Error (List Slot × Option (Option (List Octet) × ℕ) × Bool) :=
  match _h : ldifGetline next with
  | none => .ok (before, dn, version)
  | some (line, next) =>
    if line = [] ∨ line.head? = some NL then .ok (before, dn, version)
    -- there are `lines` bytes at `lr_freeval`
    else if lines ≤ before.length then .error .wild
    else if line = [ascii '-'] then readLines linenum lines next (before ++ [⟨none, none, false⟩]) dn version
    else
      match ldifParseLine2 fetchUrl line with
      | none => .error .wild
      | some p =>
        if p.ok = false then .error (.rc LDAP_PARAM_ERROR)
        else
          let s : Slot := ⟨some p.type, p.value, p.freeval⟩
          if dn.isSome then readLines linenum lines next (before ++ [s]) dn version
          else if linenum + before.length = 1 ∧ isWord s.btype "version" then readLines linenum lines next (before ++ [s]) dn true
          else if isWord s.btype "dn" then readLines linenum lines next (before ++ [s]) (some (s.val, before.length)) version
          else readLines linenum lines next (before ++ [s]) dn version
termination_by (next.map (·.length + 1)).getD 0
decreasing_by all_goals exact getline_next _h

structure LDAPControl where
  oid : List Octet
  iscritical : Bool
  value : Option (List Octet)
deriving DecidableEq

def takeCriticality (s : List Octet) : Bool × List Octet :=
  if CaseEq (s.take 4) (text "true") then (true, s.drop 4)
  else if CaseEq (s.take 5) (text "false") then (false, s.drop 5)
  else (false, s)

def parseLdifControl (bval : List Octet) (pctrls : List LDAPControl) : Except Error (List LDAPControl) :=
  let s := cstr bval
  let oid := s.takeWhile fun c => isDigit c || c = ascii '.'
  let s := s.dropWhile fun c => isDigit c || c = ascii '.'
  if oid = [] then .error (.rc LDAP_PARAM_ERROR)
  else if s ≠ [] ∧ isSpace (s.headD 0) = false then .error (.rc LDAP_PARAM_ERROR)
  else
    let (criticality, s) := takeCriticality (s.tail.dropWhile isSpace)
    let s := s.dropWhile isSpace
    if s = [] then .ok (pctrls ++ [⟨oid, criticality, none⟩])
    else if s.head? ≠ some COLON then .error (.rc LDAP_PARAM_ERROR)
    else
      match ldifParseLine2 fetchUrl (ascii 'a' :: s) with
      | none => .error .wild
      | some p => if p.ok then .ok (pctrls ++ [⟨oid, criticality, p.value⟩]) else .error (.rc LDAP_PARAM_ERROR)

end

/-- The line `j` goes behind the line `i` and takes its type. -/
def moveUp (slots : List Slot) (i j : ℕ) : List Slot :=
  (slots.eraseIdx j).insertIdx (i + 1) { slotAt slots j with btype := (slotAt slots i).btype }

/-- The inner loop, with `m` lines from `j` on: the lines, the new `i` and `nmods`. -/
def gatherFrom : (m i j nmods : ℕ) → List Slot → Except Error (List Slot × ℕ × ℕ)
  | 0, i, _, nmods, slots => .ok (slots, i, nmods)
  | m + 1, i, j, nmods, slots =>
    if (slotAt slots j).btype = none then .error (.rc LDAP_PARAM_ERROR)
    else
      match bvCasematch (slotAt slots i).btype (slotAt slots j).btype with
      | .error e => .error e
      | .ok true => gatherFrom m (i + 1) (j + 1) (nmods - 1) (if j ≠ i + 1 then moveUp slots i j else slots)
      | .ok false => gatherFrom m i (j + 1) nmods slots

def gather : (rounds i nmods : ℕ) → List Slot → Except Error (List Slot × ℕ)
  | 0, _, nmods, slots => .ok (slots, nmods)
  | rounds + 1, i, nmods, slots =>
    if i < slots.length then
      match gatherFrom (slots.length - (i + 1)) i (i + 1) nmods slots with
      | .error e => .error e
      | .ok (slots, i, nmods) => gather rounds (i + 1) nmods slots
    else .ok (slots, nmods)

/-- A pointer of the block; one to a value is what it points to, and the values do not change any more. -/
inductive Cell where
  | free
  | null
  | mod (j : ℕ)
  | value (v : Option (List Octet))
deriving DecidableEq

/-- `mod_bvalues` is a place among the pointers. -/
structure LDAPMod where
  op : ℕ
  type : Option (List Octet)
  bvalues : Option ℕ
deriving DecidableEq

/-- `lr_lm`, and the pointers behind it: `nmods + 1` from `pmods` on, and the rest from `bvl` on. -/
structure Mods where
  lm : List (Option LDAPMod)
  ptrs : List Cell
  j : ℕ
  /-- One more than in the code, where it starts with -1. -/
  k : ℕ
deriving DecidableEq

def put {α : Type} (block : List α) (i : ℕ) (x : α) : Except Error (List α) :=
  if i < block.length then .ok (block.set i x) else .error .wild

/-- The block for `nmods`; `lines` is `lr_lines - idn`. -/
def allocMods (nmods lines : ℕ) : Mods := ⟨List.replicate nmods none, List.replicate (nmods + 1 + (lines + nmods)) .free, 0, 0⟩

/-- `bvl[k++]` is written. -/
def putBvl (nmods : ℕ) (c : Cell) (o : Mods) : Except Error Mods := do
  let ptrs ← put o.ptrs (nmods + o.k) c
  return { o with ptrs, k := o.k + 1 }

/-- The next modification. It has no values if it is `deferred`. -/
def newMod (nmods op : ℕ) (type : Option (List Octet)) (deferred : Bool) (o : Mods) : Except Error Mods := do
  let o ← putBvl nmods .null o
  let lm ← put o.lm o.j (some ⟨op, type.map cstr, if deferred then none else some (nmods + o.k)⟩)
  let ptrs ← put o.ptrs o.j (.mod o.j)
  return ⟨lm, ptrs, o.j + 1, o.k⟩

def closeMods (nmods : ℕ) (o : Mods) : Except Error Mods := do
  let ptrs ← put o.ptrs (nmods + o.k) .null
  let ptrs ← put ptrs o.j .null
  return { o with ptrs }

/-- The loop that fills the block for a new entry. `bv` is the type before. -/
def fillEntry (nmods : ℕ) : List Slot → (bv : Option (List Octet)) → Mods → Except Error Mods
  | [], _, o => closeMods nmods o
  | s :: slots, bv, o => do
    let same ← bvCasematch s.btype bv
    let o ← if same then .ok o else newMod nmods (LDAP_MOD_ADD ||| LDAP_MOD_BVALUES) s.btype false o
    let o ← putBvl nmods (.value s.val) o
    fillEntry nmods slots (if same then bv else s.btype) o

/-- The attributes of a new entry from the line `i` on. -/
def newEntry (slots : List Slot) (i : ℕ) : Except Error Mods := do
  let (slots, nmods) ← gather slots.length i (slots.length - i) slots
  fillEntry nmods (slots.drop i) none (allocMods nmods (slots.length - i))

/-! ## Modifications -/

/-- The loop over the lines of a modify request. `done` are the lines before with their `lr_mops`, the nearest first. -/
structure ModState where
  done : List (Slot × ℕ)
  nmods : ℕ
  modop : ℕ
  expectModop : Bool
  expectSep : Bool
  bv : Option (List Octet)
deriving DecidableEq

def modopLine (st : ModState) (s : Slot) : Except Error ModState :=
  let st := { st with expectModop := false, expectSep := true, bv := s.val }
  if isWord s.btype "add" then .ok { st with modop := LDAP_MOD_ADD, done := (s, M_SEP) :: st.done, nmods := st.nmods - 1 }
  else if isWord s.btype "replace" then
    .ok { st with modop := LDAP_MOD_REPLACE, done := ({ s with btype := s.val }, LDAP_MOD_REPLACE ||| LDAP_MOD_BVALUES) :: st.done }
  else if isWord s.btype "delete" then
    .ok { st with modop := LDAP_MOD_DELETE, done := ({ s with btype := s.val }, LDAP_MOD_DELETE ||| LDAP_MOD_BVALUES) :: st.done }
  else if isWord s.btype "increment" then
    .ok { st with modop := LDAP_MOD_INCREMENT, done := (s, M_SEP) :: st.done, nmods := st.nmods - 1 }
  else .error (.rc LDAP_PARAM_ERROR)

def valueLine (st : ModState) (s : Slot) : Except Error ModState := do
  if ← bvCasematch s.btype st.bv then
    match st.done with
    | [] => .error .wild
    | (s', mop) :: done =>
      if mop &&& LDAP_MOD_BVALUES ≠ 0 then
        if ← bvCasematch s.btype s'.btype then
          return { st with done := (s, st.modop) :: (s', M_SEP) :: done, nmods := st.nmods - 1 }
        else return { st with done := (s, st.modop) :: st.done }
      else return { st with done := (s, st.modop) :: st.done }
  else .error (.rc LDAP_PARAM_ERROR)

def modLine (st : ModState) (s : Slot) : Except Error ModState :=
  if st.expectModop then modopLine st s
  else if st.expectSep ∧ s.btype.getD [] = [] then
    .ok { st with done := (s, M_SEP) :: st.done, expectSep := false, expectModop := true, nmods := st.nmods - 1 }
  else valueLine st s

/-- The loop that fills the block; `prev` is `lr_mops[i - 1]`. -/
def fillModify (nmods : ℕ) : List (Slot × ℕ) → (prev : ℕ) → (bv : Option (List Octet)) → Mods → Except Error Mods
  | [], _, _, o => closeMods nmods o
  | (s, mop) :: slots, prev, bv, o => do
    if mop = M_SEP then fillModify nmods slots mop bv o
    else
      let same ← if mop ≠ prev then .ok false else bvCasematch s.btype bv
      let o ← if same then .ok o else newMod nmods (mop ||| LDAP_MOD_BVALUES) s.btype (mop &&& LDAP_MOD_BVALUES ≠ 0) o
      let o ← putBvl nmods (.value s.val) o
      fillModify nmods slots mop (if same then bv else s.btype) o

/-- The modifications from the line `i` on. The line in front of them is the DN at least. -/
def modify (slots : List Slot) (i : ℕ) : Except Error Mods := do
  let start : ModState := ⟨[(slotAt slots (i - 1), M_SEP)], slots.length - i, 0, true, false, none⟩
  let st ← (slots.drop i).foldlM modLine start
  fillModify st.nmods (st.done.reverse.drop 1) M_SEP none (allocMods st.nmods (slots.length - i))

structure LDIFRecord where
  dn : Option (List Octet)
  ctrls : List LDAPControl
  /-- 0 if there is nothing to do. -/
  op : ℕ
  mods : Option Mods
  newrdn : Option (List Octet)
  newsup : Option (List Octet)
  delold : Bool
deriving DecidableEq

def emptyRecord : LDIFRecord := ⟨none, [], 0, none, none, none, false⟩

/-- The lines of a change of the name, from `newrdn` on. -/
def modDn (lr : LDIFRecord) (slots : List Slot) (i : ℕ) : Except Error LDIFRecord :=
  if slots.length ≤ i then .error (.rc LDAP_PARAM_ERROR)
  else if isWord (slotAt slots i).btype "newrdn" = false then .error (.rc LDAP_PARAM_ERROR)
  else if slots.length ≤ i + 1 then .error (.rc LDAP_PARAM_ERROR)
  else if isWord (slotAt slots (i + 1)).btype "deleteoldrdn" = false then .error (.rc LDAP_PARAM_ERROR)
  else
    let delold := ((slotAt slots (i + 1)).val.getD []).head? ≠ some (ascii '0')
    let lr := { lr with newrdn := (slotAt slots i).val, delold, op := LDAP_REQ_MODDN }
    if slots.length ≤ i + 2 then .ok lr
    else if isWord (slotAt slots (i + 2)).btype "newsuperior" = false then .error (.rc LDAP_PARAM_ERROR)
    -- the counter is one line ahead by now
    else if i + 4 < slots.length then .error (.rc LDAP_PARAM_ERROR)
    else .ok { lr with newsup := (slotAt slots (i + 2)).val }

/-- From `changetype` on; `ctrls` are not in the record of a request that is skipped. -/
def change (flags : Flags) (lr : LDIFRecord) (ctrls : List LDAPControl) (slots : List Slot) (i : ℕ) : Except Error LDIFRecord :=
  let entry (i : ℕ) := (newEntry slots i).map fun mods => { lr with ctrls, op := LDAP_REQ_ADD, mods := some mods }
  let mods (i : ℕ) := (modify slots i).map fun mods => { lr with ctrls, op := LDAP_REQ_MODIFY, mods := some mods }
  if isWord (slotAt slots i).btype "changetype" then
    let val := (slotAt slots i).val
    if flags.entriesOnly ∧ isWord val "add" = false then .ok lr
    else if isWord val "modify" then mods (i + 1)
    else if isWord val "add" then entry (i + 1)
    else if isWord val "modrdn" ∨ isWord val "moddn" ∨ isWord val "rename" then modDn { lr with ctrls } slots (i + 1)
    else if isWord val "delete" then
      if i + 1 < slots.length then .error (.rc LDAP_PARAM_ERROR) else .ok { lr with ctrls, op := LDAP_REQ_DELETE }
    else .error (.rc LDAP_PARAM_ERROR)
  else if flags.defaultAdd then entry i
  else if flags.entriesOnly then .ok lr
  else mods i

/-- `ldap_parse_ldif_record_x` of the string at `rbuf`. What is in the record of an error is freed. -/
def ldapParseLdifRecord (fetchUrl : List Octet → Option (List Octet)) (flags : Flags) (linenum : ℕ) (rbuf : List Octet) :
    Except Error LDIFRecord := do
  let s := cstr rbuf
  let (slots, dn, version) ← readLines fetchUrl linenum (ldifCountlines s) (some s) [] none false
  match dn with
  | none => return emptyRecord
  | some (dn, idn) =>
    let lr := { emptyRecord with dn }
    if version ∧ slots.length = 1 then return lr
    else if isWord (slotAt slots (idn + 1)).btype "control" then
      let parsed := if flags.noControls then .ok [] else parseLdifControl fetchUrl ((slotAt slots (idn + 1)).val.getD []) []
      if slots.length ≤ idn + 2 then .error (.rc LDAP_PARAM_ERROR)
      else
        match parsed with
        | .ok ctrls => change flags lr ctrls slots (idn + 2)
        -- the error of the control comes after all others
        | .error e => (change flags lr [] slots (idn + 2)).bind fun _ => .error e
    else change flags lr [] slots (idn + 1)

structure Listed where
  op : ℕ
  type : Option (List Octet)
  values : Option (List (Option (List Octet)))
deriving DecidableEq

def valuesAt : List Cell → Option (List (Option (List Octet)))
  | .null :: _ => some []
  | .value v :: cells => (valuesAt cells).map fun vs => v :: vs
  | _ => none

def listedMod (ptrs : List Cell) (m : LDAPMod) : Option Listed :=
  match m.bvalues with
  | none => some ⟨m.op, m.type, none⟩
  | some p => (valuesAt (ptrs.drop p)).map fun vs => ⟨m.op, m.type, some vs⟩

def modsAt (o : Mods) : List Cell → Option (List Listed)
  | .null :: _ => some []
  | .mod j :: cells => do
    let m ← (o.lm[j]?).join
    let l ← listedMod o.ptrs m
    let ls ← modsAt o cells
    return l :: ls
  | _ => none

/-- What is found from `lrop_mods` on. -/
def listed (o : Mods) : Option (List Listed) := modsAt o o.ptrs

end LdifRecord
end Libreldap
end ReOpenLDAP
