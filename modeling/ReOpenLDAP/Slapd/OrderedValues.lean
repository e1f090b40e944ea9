import Mathlib.Data.List.Sort
import ReOpenLDAP.Slapd.AttrValues
import ReOpenLDAP.Slapd.Increment

/-!
# Slapd.OrderedValues

X-ORDERED VALUES attributes: each value has its index in braces in front.

A result `none` is undefined behaviour or a failed assertion.
-/

namespace ReOpenLDAP
namespace Slapd
namespace AttrVals

open InPlace

def digitValue (c : Char) : ℕ :=
  if c.isDigit then c.toNat - '0'.toNat
  else if c.isLower then c.toNat - 'a'.toNat + 10
  else if c.isUpper then c.toNat - 'A'.toNat + 10
  else 36

def isDigitOf (base : ℕ) (c : Char) : Bool := digitValue c < base

/-- The base that `strtol` takes when it is given 0, and the digits. -/
def detectBase : List Char → ℕ × List Char
  | '0' :: x :: d :: s => if (x = 'x' ∨ x = 'X') ∧ isDigitOf 16 d then (16, d :: s) else (8, '0' :: x :: d :: s)
  | '0' :: s => (8, '0' :: s)
  | s => (10, s)

def clampLong (n : ℤ) : ℤ := max LONG_MIN (min LONG_MAX n)

/-- `strtol` with base 0: the number, and the text behind it, which is all of it where there is no number. -/
def strtol (s : List Char) : ℤ × List Char :=
  let s1 := s.dropWhile isspace
  let s2 := if s1.head? = some '-' ∨ s1.head? = some '+' then s1.tail else s1
  let (base, s3) := detectBase s2
  let digits := s3.takeWhile (isDigitOf base)
  if digits = [] then (0, s)
  else
    let n := digits.foldl (fun r c => r * base + digitValue c) 0
    (clampLong (if s1.head? = some '-' then -n else n), s3.dropWhile (isDigitOf base))

/-- A `long` that is stored in an `int`. -/
def toInt (l : ℤ) : ℤ := Int.bmod l (2 ^ 32)

/-- `{%u}` -/
def indexText (i : ℕ) : List Char := '{' :: (Nat.toDigits 10 i ++ ['}'])

def stripIndex (v : List Char) : Option (List Char) :=
  if v.head? = some '{' then (splitIndex v).map Prod.snd else some v

/-- The loop of `ordered_value_renumber` over one of the arrays. -/
def renumberLoop (n : ℕ) : ℕ → List (List Char) → Option (List (List Char))
  | i, [] => if i < n then none else some []
  | i, v :: vs =>
    if i < n then do
      let content ← stripIndex v
      let rest ← renumberLoop n (i + 1) vs
      some ((indexText i ++ content) :: rest)
    else some (v :: vs)

def orderedValueRenumber (a : Values) : Option Values := do
  let vals ← renumberLoop a.numvals 0 a.vals
  match a.nvals with
  | none => some { a with vals }
  | some ns => do
    let nvals ← renumberLoop a.numvals 0 ns
    some { a with vals, nvals }

/-- The loop that looks for indexes: whether there are any, and none for `LDAP_INVALID_SYNTAX`. -/
def checkIndexes : Bool → Bool → List (List Char) → Option Bool
  | index, _, [] => some index
  | index, noindex, v :: vs =>
    if v.head? = some '{' then
      if '}' ∉ v ∨ noindex then none else checkIndexes true noindex vs
    else if index then none
    else checkIndexes index true vs

structure Row where
  index : ℤ
  val : List Char
  nval : List Char
deriving DecidableEq

/-- The index as `strtol` gives it. -/
def parseIndex (v : List Char) : Option ℤ :=
  let (l, rest) := strtol v.tail
  if rest.head? = some '}' then some (toInt l) else none

def parseRows : List (List Char × List Char) → Option (List Row)
  | [] => some []
  | (v, nv) :: ps => do
    let index ← parseIndex v
    let rows ← parseRows ps
    some (⟨index, v, nv⟩ :: rows)

def sortRows (rows : List Row) : List Row :=
  (rows.foldl (fun sorted r => sorted.orderedInsert (fun a b => b.index ≤ a.index) r) []).reverse

def Values.withRows (a : Values) (rows : List Row) : Values :=
  { a with vals := rows.map Row.val, nvals := a.nvals.map fun _ => rows.map Row.nval }

/-- Whether the values are not renumbered: of sorted rows only the first and the last are looked at. -/
def contiguous (rows : List Row) : Bool :=
  rows.head?.map Row.index = some 0 && rows.getLast?.map Row.index = some (rows.length - 1 : ℤ)

/-- `ordered_value_sort`: its return code, `none` for success, and the attribute. -/
def orderedValueSort (a : Values) (doRenumber : Bool) : Option (Option ModRc × Values) :=
  -- the values are counted in an `int`
  if 2 ^ 31 ≤ a.vals.length ∨ a.norms.length ≠ a.vals.length then none
  else
    match checkIndexes false false a.vals with
    | none => some (some .invalidSyntax, a)
    | some false => if doRenumber then (orderedValueRenumber a).map fun a => (none, a) else some (none, a)
    | some true =>
      match parseRows (a.vals.zip a.norms) with
      | none => some (some .invalidSyntax, a)
      | some rows =>
        let rows := sortRows rows
        let a := a.withRows rows
        if doRenumber && !contiguous rows then (orderedValueRenumber a).map fun a => (none, a) else some (none, a)

/-- Moves the values from `k` on, in an array that has room, and stores `v` there. -/
def insertNew (vals : List (List Char)) (k : ℕ) (v : List Char) : Option (List (List Char)) := do
  let a ← shiftUp (vals.map some ++ [none]) k (vals.length - k)
  let a ← store a k (some v)
  some a.reduceOption

/-- `k` for a new value: -1 for the end; none for the error. -/
def addIndex (v : List Char) : Option ℤ :=
  if v.head? = some '{' then
    let (l, next) := strtol v.tail
    if next = v.tail ∨ next.head? ≠ some '}' then none else some (toInt l)
  else some (-1)

def addLoop (new nnew : List (List Char)) :
    List (List Char × List Char) → Option (Option (List (List Char) × List (List Char)))
  | [] => some (some (new, nnew))
  | (v, nv) :: ps =>
    match addIndex v with
    | none => some none
    | some k =>
      if k < 0 ∨ (new.length : ℤ) < k then addLoop (new ++ [v]) (nnew ++ [nv]) ps
      else do
        let new ← insertNew new k.toNat v
        let nnew ← insertNew nnew k.toNat nv
        addLoop new nnew ps

/-- `ordered_value_add`. The state is the attribute of the description in the entry. -/
def orderedValueAdd (t : AttrType) (attr : Option Values) (vals : List (List Char)) (nvals : Option (List (List Char))) :
    Option (Option ModRc × Values) := do
  let a ←
    match attr with
    | none => some (attrAlloc t)
    | some a => (orderedValueSort a false).map Prod.snd
  let v2 := nvals.getD vals
  if v2.length ≠ vals.length ∨ a.numvals ≠ a.vals.length ∨ a.norms.length ≠ a.vals.length then none
  else if 2 ^ 31 ≤ a.numvals + vals.length then none
  else if (nvals ≠ none ∧ a.vals ≠ [] ∧ a.nvals = none) ∨ (nvals = none ∧ a.nvals ≠ none) then none
  else
    match ← addLoop a.vals a.norms (vals.zip v2) with
    | none => some (some .other, a)
    | some (new, nnew) =>
      let a ← orderedValueRenumber { a with numvals := new.length, vals := new, nvals := nvals.map fun _ => nnew }
      some (none, a)

section

variable {a a' : Values} {doRenumber : Bool} {rc : Option ModRc}

theorem orderedValueRenumber_numvals (h : orderedValueRenumber a = some a') : a'.numvals = a.numvals := by
  unfold orderedValueRenumber at h
  obtain ⟨vals, -, h⟩ := Option.bind_eq_some_iff.mp h
  cases hn : a.nvals with
  | none =>
    rw [hn] at h
    cases h
    rfl
  | some ns =>
    rw [hn] at h
    obtain ⟨nvals, -, h⟩ := Option.bind_eq_some_iff.mp h
    cases h
    rfl

theorem orderedValueSort_cases (h : orderedValueSort a doRenumber = some (rc, a')) :
    a' = a ∨ (∃ rows, a' = a.withRows rows) ∨ orderedValueRenumber a = some a' ∨
      ∃ rows, orderedValueRenumber (a.withRows rows) = some a' := by
  unfold orderedValueSort at h
  split at h
  · cases h
  split at h
  · cases h
    exact .inl rfl
  · split_ifs at h
    · obtain ⟨b, hb, heq⟩ := Option.map_eq_some_iff.mp h
      cases heq
      exact .inr (.inr (.inl hb))
    · cases h
      exact .inl rfl
  · split at h
    · cases h
      exact .inl rfl
    · dsimp only at h
      split_ifs at h
      · obtain ⟨b, hb, heq⟩ := Option.map_eq_some_iff.mp h
        cases heq
        exact .inr (.inr (.inr ⟨_, hb⟩))
      · cases h
        exact .inr (.inl ⟨_, rfl⟩)

theorem orderedValueSort_numvals (h : orderedValueSort a doRenumber = some (rc, a')) : a'.numvals = a.numvals := by
  rcases orderedValueSort_cases h with rfl | ⟨rows, rfl⟩ | hnum | ⟨rows, hnum⟩
  · rfl
  · rfl
  · exact orderedValueRenumber_numvals hnum
  · rw [orderedValueRenumber_numvals hnum]
    rfl

end

end AttrVals
end Slapd
end ReOpenLDAP
