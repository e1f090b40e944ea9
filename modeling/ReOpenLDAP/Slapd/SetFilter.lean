import Mathlib.Control.Monad.Basic
import ReOpenLDAP.Slapd.Sets

/-!
# Slapd.SetFilter

`slap_set_filter`: the set expression of an access rule, read and computed in one pass over its characters. One stack has
operators, which are small integers, and sets, which are pointers.
-/

namespace ReOpenLDAP
namespace Slapd
namespace Sets

open Ascii

/-- What `slap_set_filter` is given besides the expression. `bv2ad` is `slap_bv2ad`, and no user is a null pointer. -/
structure Env (δ : Type*) where
  dir : Directory δ Str
  bv2ad : Str → Option δ
  user : Option Str
  target : Str

inductive Slot where
  | op (c : Octet)
  | set (vals : List Str)

inductive Stop where
  /-- `SF_ERROR` -/
  | error
  /-- A small integer is taken for an array. -/
  | crash
  /-- A closure has no end. -/
  | spin
  deriving DecidableEq

abbrev Pass := Except Stop

def STACK_SIZE : ℕ := 64

/-- `IS_SET(SF_TOP())` -/
def topIsSet : List Slot → Bool
  | .set _ :: _ => true
  | _ => false

/-- `SF_TOP() == (void *)'/'` -/
def topIsSlash : List Slot → Bool
  | .op c :: _ => c = ascii '/'
  | _ => false

/-- `SF_PUSH` -/
def push (x : Slot) (st : List Slot) : Pass (List Slot) := if STACK_SIZE ≤ st.length then .error .error else .ok (x :: st)

/-- `SF_POP` where an array is expected. An empty stack gives the null pointer. -/
def popArray : List Slot → Pass (Option (List Str))
  | [] => .ok none
  | .set vals :: _ => .ok (some vals)
  | .op _ :: _ => .error .crash

/-- `slap_set_join` with what is on the stack as left set. -/
def joinTop (st : List Slot) (op : Octet) (set : List Str) : Pass (List Str) := do
  let lset ← popArray st
  match slapSetJoin lset op (some set) with
  | none => .error .error
  | some set => .ok set

/-- The case `)`. The slot below the left set goes, whatever it has. -/
def closeParen : List Slot → Pass (List Slot)
  | .set set :: st =>
    match st with
    | .op c :: st =>
      if c = ascii '(' then push (.set set) st
      else do
        let set ← joinTop st c set
        push (.set set) st.tail.tail
    | [] => do
      let set ← joinTop [] 0 set
      push (.set set) []
    | .set _ :: _ => .error .error
  | _ => .error .error

/-- The cases `|`, `&` and `+`. -/
def operator (c : Octet) : List Slot → Pass (List Slot)
  | .set set :: st =>
    match st with
    | [] => do
      let st ← push (.set set) []
      push (.op c) st
    | .op op :: st =>
      if op = ascii '(' then do
        let st ← push (.set set) (.op op :: st)
        push (.op c) st
      else do
        let set ← joinTop st op set
        let st ← push (.set set) st.tail
        push (.op c) st
    | .set _ :: _ => .error .error
  | _ => .error .error

def finish : List Slot → Pass (List Str)
  | .set set :: st =>
    match st with
    | [] => .ok set
    | .op op :: st => joinTop st op set
    | .set _ :: _ => .error .error
  | _ => .error .error

def AD_LEADCHAR (c : Octet) : Bool := isAlnum c

def AD_CHAR (c : Octet) : Bool := isAlnum c || c = ascii '-' || c = ascii '.' || c = ascii ';'

/-- A word goes up to a character that no attribute description has, or to a hyphen before such a character. -/
def wordTail : Str → Str
  | [] => []
  | c :: filter =>
    if AD_CHAR c = false then []
    else if c = ascii '-' ∧ AD_CHAR (filter.headD 0) = false then []
    else c :: wordTail filter

def number (ds : Str) : ℕ := ds.foldl (fun n d => 10 * n + (d.val - 48)) 0

/-- What `strtol` makes of a number. -/
def toLong (n : ℕ) : ℕ := min n (2 ^ 63 - 1)

/-- A `long` that is passed as an `int`. -/
def toInt (n : ℕ) : ℤ := Int.bmod n (2 ^ 32)

variable {δ : Type*} (env : Env δ)

/-- The cases of `this`, `user` and `[`. -/
def pushValue (v : Str) (st : List Slot) : Pass (List Slot) :=
  if topIsSlash st = true ∨ topIsSet st = true then .error .error else push (.set [v]) st

/-- The step `-*`. -/
def parentsStep (st : List Slot) : Pass (List Slot) := do
  let set ← popArray st.tail
  push (.set (setParents set)) st.tail.tail

/-- The step `-n`. -/
def parentStep (parent : ℕ) (st : List Slot) : Pass (List Slot) := do
  let set ← popArray st.tail
  match if parent = 0 then set else some (setParent (toInt parent) set) with
  | none => .error .error
  | some set => push (.set set) st.tail.tail

/-- The step `attr`, with `attr*` as the closure. -/
def chaseStep (attr : Str) (closure : Bool) (st : List Slot) : Pass (List Slot) :=
  if topIsSlash st = false then .error .error
  else
    match env.bv2ad attr with
    | none => .error .error
    | some ad => do
      let set ← popArray st.tail
      match setChase env.dir ad (chaseRounds env.dir ad (set.getD [])) set closure with
      | none => .error .spin
      | some set => push (.set set) st.tail.tail

/-- The default case. `rest` is behind the word. -/
def wordStep (word rest : Str) (st : List Slot) : Pass (ℕ × List Slot) :=
  if word = text "this" then do
    let st ← pushValue env.target st
    .ok (word.length - 1, st)
  else if word = text "user" then
    match env.user with
    | none => .error .error
    | some user => do
      let st ← pushValue user st
      .ok (word.length - 1, st)
  else do
    let closure := decide (rest.head? = some (ascii '*'))
    let st ← chaseStep env word closure st
    .ok (if closure then word.length else word.length - 1, st)

/-- The character `c` with `filter` behind it. -/
def filterStep (c : Octet) (filter : Str) (st : List Slot) : Pass (ℕ × List Slot) :=
  if c = ascii ' ' ∨ c = 9 ∨ c = 10 ∨ c = 13 then .ok (0, st)
  else if c = ascii '(' then
    if topIsSet st then .error .error
    else do
      let st ← push (.op c) st
      .ok (0, st)
  else if c = ascii ')' then do
    let st ← closeParen st
    .ok (0, st)
  else if c = ascii '|' ∨ c = ascii '&' ∨ c = ascii '+' then do
    let st ← operator c st
    .ok (0, st)
  else if c = ascii '[' then
    let literal := filter.takeWhile (· ≠ ascii ']')
    if literal.length = filter.length then .error .error
    else do
      let st ← pushValue literal st
      .ok (literal.length + 1, st)
  else if c = ascii '-' ∧ topIsSlash st = true ∧ filter.head? = some (ascii '*') then do
    let st ← parentsStep st
    .ok (1, st)
  else if c = ascii '-' ∧ topIsSlash st = true ∧ isDigit (filter.headD 0) = true then
    let digits := filter.takeWhile isDigit
    do
      let st ← parentStep (toLong (number digits)) st
      .ok (digits.length, st)
  else if c = ascii '-' then
    if filter.head? ≠ some (ascii '>') then .error .error
    else if topIsSet st = false then .error .error
    else do
      let st ← push (.op (ascii '/')) st
      .ok (1, st)
  else if c = ascii '/' then
    if topIsSet st = false then .error .error
    else do
      let st ← push (.op c) st
      .ok (0, st)
  else if AD_LEADCHAR c = false then .error .error
  else wordStep env (c :: wordTail filter) (filter.drop (wordTail filter).length) st

/-- The loop over the characters. The first `skip` of them are taken already. -/
def filterLoop : (skip : ℕ) → Str → List Slot → Pass (List Slot)
  | _, [], st => .ok st
  | skip + 1, _ :: filter, st => filterLoop skip filter st
  | 0, c :: filter, st => do
    let (skip, st) ← filterStep env c filter st
    filterLoop skip filter st

/-- `slap_set_filter` on the string up to its end. The number it returns. -/
def slapSetFilter (fbv : Str) : Pass ℤ :=
  match filterLoop env 0 (fbv.takeWhile (· ≠ 0)) [] >>= finish with
  | .ok set => .ok (if set = [] then 0 else 1)
  | .error .error => .ok (-1)
  | .error stop => .error stop

end Sets
end Slapd
end ReOpenLDAP
