import Mathlib.Data.Rat.Floor
import ReOpenLDAP.Lib.Calendar
import ReOpenLDAP.Lib.Decimal
import ReOpenLDAP.Sync.Csn

/-!
# Slapd.TimeSyntax

The syntax of GeneralizedTime, `YYYYmmddHH[MM[SS]][(./,)d...](Z|(+ or -)HH[MM])`.
-/

namespace ReOpenLDAP
namespace Slapd

open Calendar Decimal

/-- Century, year, month, day, hour, minute, second; hour and minute of the offset. Months and days count from 0. -/
abbrev Parts := ℕ → ℤ

def ceiling (part : ℕ) : ℤ := [100, 100, 12, 31, 24, 60, 60, 24, 60].getD part 0

def mdays (leapyear : Bool) (month : ℤ) : ℤ :=
  (if leapyear then [31, 29, 31, 30, 31, 30, 31, 31, 30, 31, 30, 31]
    else [31, 28, 31, 30, 31, 30, 31, 31, 30, 31, 30, 31]).getD month.toNat 0

/-- The loops over two digits each. In the second one, from `part = 7`, no part is a month, a day or a second. -/
def scanParts (last part : ℕ) (parts : Parts) : List Char → Option (ℕ × Parts × List Char)
  | [] => some (part, parts, [])
  | c1 :: p =>
    if part < last ∧ c1.isDigit then
      match p with
      | [] => none
      | c2 :: p =>
        if ¬ c2.isDigit then none
        else
          let c : ℤ := value c1 * 10 + value c2
          let c := if part ||| 1 = 3 then c - 1 else c
          if part ||| 1 = 3 ∧ c < 0 then none
          else if ceiling part ≤ c ∧ ¬ (c = 60 ∧ part = 6) then none
          else scanParts last (part + 1) (Function.update parts part c) p
    else some (part, parts, c1 :: p)

def leapyear (parts : Parts) : Bool := decide (parts (if parts 1 = 0 then 0 else 1) % 4 = 0)

/-- A number as `int`. -/
def toInt (n : ℤ) : ℤ := n.bmod (2 ^ 32)

/-- An `int` as `ber_len_t`. -/
def toLen (c : ℤ) : ℕ := (c % 2 ^ 64).toNat

structure Fraction where
  bv_val : List Char
  bv_len : ℕ

/-- `end_num`, counted from the mark; `bv_len` is the length of the whole value, a NUL follows it. -/
def trimEnd (bv_len : ℕ) (fraction : List Char) : ℕ → ℕ
  | 0 => 0
  | end_num + 1 =>
    if fraction.getD end_num '\x00' = '0' then
      if fraction.getD (end_num + 1) '\x00' = 'Z' ∧ fraction.getD (end_num + 2) '\x00' = '\x00' ∧ bv_len = 22 ∧
          end_num + 1 = 7 then end_num + 1
      else trimEnd bv_len fraction end_num
    else end_num + 1

def scanFraction (bv_len : ℕ) (p : List Char) : Option (Fraction × List Char) :=
  match p with
  | [] => some (⟨p, 0⟩, p)
  | mark :: ds =>
    if mark = '.' ∨ mark = ',' then
      let digits := ds.takeWhile Char.isDigit
      if digits = [] then none
      else
        let c := toInt (trimEnd bv_len p (digits.length + 1))
        some (⟨p, if c ≠ 1 then toLen c else 0⟩, ds.dropWhile Char.isDigit)
    else some (⟨p, 0⟩, p)

def carryParts (leapyear : Bool) : ℕ → Parts → Option Parts
  | 0, parts => some parts
  | part + 1, parts =>
    let c := if part ≠ 3 then ceiling part else mdays leapyear (parts 2)
    if c ≤ parts part then
      if part = 0 then none
      else carryParts leapyear part
        (Function.update (Function.update parts part (parts part - c)) (part - 1) (parts (part - 1) + 1))
    else if part ≠ 5 then some parts
    else carryParts leapyear part parts

def borrowParts (leapyear : Bool) : ℕ → Parts → Option Parts
  | 0, parts => some parts
  | part + 1, parts =>
    if parts part < 0 then
      if part = 0 then none
      else
        let c := if part ≠ 3 then ceiling part else mdays leapyear ((parts 2 - 1 + 12) % 12)
        borrowParts leapyear part
          (Function.update (Function.update parts part (parts part + c)) (part - 1) (parts (part - 1) - 1))
    else if part ≠ 5 then some parts
    else borrowParts leapyear part parts

def scanZone (leapyear : Bool) (parts : Parts) : List Char → Option Parts
  | [] => none
  | tzoffset :: p =>
    if tzoffset = 'Z' then if p ≠ [] then none else some parts
    else if tzoffset = '+' ∨ tzoffset = '-' then
      match scanParts 9 7 parts p with
      | none => none
      | some (part, parts, p) =>
        if part < 8 then none
        else
          let shifted :=
            if tzoffset = '-' then
              carryParts leapyear 6 (Function.update (Function.update parts 4 (parts 4 + parts 7)) 5 (parts 5 + parts 8))
            else borrowParts leapyear 6 (Function.update (Function.update parts 4 (parts 4 - parts 7)) 5 (parts 5 - parts 8))
          match shifted with
          | none => none
          | some parts => if p ≠ [] then none else some parts
    else none

/-- `check_time_syntax` from the leap year on. -/
def checkFrom (bv_len : ℕ) (parts : Parts) (p : List Char) : Option (Parts × Fraction) :=
  if mdays (leapyear parts) (parts 2) ≤ parts 3 then none
  else
    match scanFraction bv_len p with
    | none => none
    | some (fraction, p) => (scanZone (leapyear parts) parts p).map fun parts => (parts, fraction)

/-- `check_time_syntax`, `none` for `LDAP_INVALID_SYNTAX`. -/
def checkTimeSyntax (val : List Char) : Option (Parts × Fraction) :=
  match scanParts 7 0 (fun _ => 0) val with
  | none => none
  | some (part, parts, p) =>
    if part < 5 then none else checkFrom val.length (fun j => if part ≤ j then 0 else parts j) p

def generalizedTimeValidate (val : List Char) : Bool := (checkTimeSyntax val).isSome

/-- `%02d` -/
def fmt02 (v : ℤ) : List Char := if 0 ≤ v ∧ v < 100 then twoDigits v.toNat else (toString v).toList

inductive TimeError where
  | invalidSyntax
  /-- writes outside the allocated memory -/
  | outside

/-- `len` is an `unsigned int`, and so is the size that is allocated. -/
def generalizedTimeNormalize (val : List Char) : Except TimeError (List Char) :=
  match checkTimeSyntax val with
  | none => .error .invalidSyntax
  | some (parts, fraction) =>
    let len := (15 + fraction.bv_len) % 2 ^ 32
    let date := fmt02 (parts 0) ++ fmt02 (parts 1) ++ fmt02 (parts 2 + 1) ++ fmt02 (parts 3 + 1) ++ fmt02 (parts 4) ++
      fmt02 (parts 5) ++ fmt02 (parts 6)
    if (len + 1) % 2 ^ 32 < date.length + 1 ∨ (len + 1) % 2 ^ 32 < 14 + fraction.bv_len then .error .outside
    else .ok (date ++ (if fraction.bv_len = 0 then [] else '.' :: (fraction.bv_val.take fraction.bv_len).tail) ++ ['Z'])

/-- `ext` is `SLAP_MR_EXT`. Of `memcmp` only the sign is used. -/
def generalizedTimeOrderingMatch (ext : Bool) (value asserted : List Char) : ℤ :=
  let n := min value.length asserted.length - 1
  let m := match Sync.memcmp (value.take n) (asserted.take n) with
    | .lt => -1
    | .eq => toInt (value.length - asserted.length)
    | .gt => 1
  if ext then if 0 ≤ m then 1 else 0 else m

/-! ## What the syntax describes -/

inductive Rest where
  | hour
  | minute (m : Fin 60)
  | second (m : Fin 60) (s : Fin 61)

structure FractionPart where
  mark : Char
  mark_ok : mark = '.' ∨ mark = ','
  digits : List Char
  ne_nil : digits ≠ []
  digits_ok : Digits digits

inductive Zone where
  | utc
  | offset (west : Bool) (hour : Fin 24) (minute : Option (Fin 60))

instance month_neZero : NeZero 12 := ⟨by decide⟩

instance century_neZero : NeZero 100 := ⟨by decide⟩

structure GeneralizedTime where
  century : Fin 100
  year : Fin 100
  month : Fin 12
  day : ℕ
  day_lt : (day : ℤ) < monthLength (century * 100 + year) month
  hour : Fin 24
  rest : Rest
  fraction : Option FractionPart
  zone : Zone

namespace Rest

def text : Rest → List Char
  | hour => []
  | minute m => twoDigits m
  | second m s => twoDigits m ++ twoDigits s

def minutes : Rest → ℤ
  | hour => 0
  | minute m => (m : ℕ)
  | second m _ => (m : ℕ)

def seconds : Rest → ℤ
  | second _ s => (s : ℕ)
  | _ => 0

def split : Rest → ℚ → ℤ × ℚ
  | hour, f => (⌊60 * f⌋, 60 * Int.fract (60 * f))
  | minute _, f => (0, 60 * f)
  | second _ _, f => (0, f)

end Rest

namespace Zone

def text : Zone → List Char
  | utc => ['Z']
  | offset west hour minute => (if west then '-' else '+') :: (twoDigits hour ++ (minute.map fun m : Fin 60 => twoDigits m).getD [])

def minutes : Zone → ℤ
  | utc => 0
  | offset west hour minute =>
    let m : ℤ := (hour : ℕ) * 60 + ((minute.map fun m : Fin 60 => (m : ℕ)).getD 0 : ℕ)
    if west then -m else m

end Zone

namespace GeneralizedTime

def fractionText (g : GeneralizedTime) : List Char := (g.fraction.map fun f => f.mark :: f.digits).getD []

def text (g : GeneralizedTime) : List Char :=
  twoDigits g.century ++ twoDigits g.year ++ twoDigits (g.month + 1) ++ twoDigits (g.day + 1) ++ twoDigits g.hour ++
    g.rest.text ++ g.fractionText ++ g.zone.text

def digits (g : GeneralizedTime) : List Char := (g.fraction.map FractionPart.digits).getD []

def utcMinute (g : GeneralizedTime) : ℤ :=
  (dayNumber (g.century * 100 + g.year) g.month g.day * 24 + (g.hour : ℕ)) * 60 + g.rest.minutes - g.zone.minutes

def instant (g : GeneralizedTime) : ℤ ×ₗ ℚ :=
  let r := g.rest.split (Decimal.fraction g.digits)
  toLex (g.utcMinute + r.1, g.rest.seconds + r.2)

def InEra (g : GeneralizedTime) : Prop := 0 ≤ g.utcMinute ∧ g.utcMinute < dayNumber 10000 0 0 * 24 * 60

end GeneralizedTime

end Slapd
end ReOpenLDAP
