import ReOpenLDAP.Libreldap.Encode

/-!
# Libreldap.Decode

`ber_scanf` and the `ber_get_*` calls it makes.

None stands for `LBER_DEFAULT`, the error. Strings are returned in memory of their own, so the buffer stays as it is.
-/

namespace ReOpenLDAP
namespace Libreldap

open Ber

namespace BerElement

/-- The octets from `ber_ptr` to `ber_end`. -/
def rest (ber : BerElement) : List ℕ := (ber.buf.take ber.berEnd).drop ber.ptr

/-- The loop of `ber_tag_and_rest`. -/
def moreTag : ℕ → List ℕ → Option (ℕ × List ℕ)
  | _, [] => none
  | tag, b :: rest =>
    let tag := (tag * 256 + b) % 2 ^ 64
    if tag / 128 % 2 = 0 then some (tag, rest) else if tag ≤ LBER_DEFAULT / 256 then moreTag tag rest else none

/-- `ber_tag_and_rest`. The first octet is the one in `ber_tag`, except at the start of the buffer. -/
def tagAndRest (ber : BerElement) : Option (ℕ × List ℕ) :=
  match ber.rest with
  | [] => none
  | b :: rest =>
    let tag := if ber.ptr = 0 then b else ber.tag
    if tag % 32 ≠ 31 then some (tag, rest) else moreTag tag rest

/-- What `ber_peek_element` finds. -/
structure Peek where
  tag : ℕ
  len : ℕ
  /-- The octets from the contents to `ber_end`. -/
  rest : List ℕ

/-- The length octets, as `ber_peek_element` reads them. -/
def peekLength : List ℕ → Option (ℕ × List ℕ)
  | [] => none
  | b :: rest =>
    if b < 0x80 then some (b, rest)
    else if b - 0x80 = 0 ∨ 8 < b - 0x80 ∨ rest.length < b - 0x80 then none
    else some (beNat (rest.take (b - 0x80)), rest.drop (b - 0x80))

/-- `ber_peek_element` -/
def peekElement (ber : BerElement) : Option Peek :=
  ber.tagAndRest.bind fun t =>
    if t.1 = LBER_DEFAULT then none
    else (peekLength t.2).bind fun l => if l.2.length < l.1 then none else some ⟨t.1, l.1, l.2⟩

def seek (ber : BerElement) (ptr : ℕ) : BerElement := { ber with ptr := ptr, tag := ber.buf.getD ptr 0 }

/-- `ber_skip_element` -/
def skipElement (ber : BerElement) : Option (ℕ × List ℕ × BerElement) :=
  ber.peekElement.map fun p => (p.tag, p.rest.take p.len, ber.seek (ber.berEnd - p.rest.length + p.len))

/-- `ber_peek_tag`, without the length. -/
def peekTag (ber : BerElement) : Option ℕ := ber.peekElement.map Peek.tag

/-- `ber_skip_tag`, with the length. -/
def skipTag (ber : BerElement) : Option (ℕ × ℕ × BerElement) :=
  ber.peekElement.map fun p => (p.tag, p.len, ber.seek (ber.berEnd - p.rest.length))

/-- `ber_decode_int` -/
def decodeInt (content : List ℕ) : Option ℤ :=
  if 4 < content.length then none
  else
    match content with
    | [] => some 0
    | b :: bs => some (bs.foldl (fun (netnum : ℤ) (b : ℕ) => netnum * 256 + (b : ℤ)) (if b < 0x80 then (b : ℤ) else (b : ℤ) - 256))

/-- `ber_get_int` -/
def getInt (ber : BerElement) : Option (ℤ × BerElement) :=
  ber.skipElement.bind fun r => (decodeInt r.2.1).map fun num => (num, r.2.2)

/-- `ber_get_null` -/
def getNull (ber : BerElement) : Option BerElement :=
  ber.skipTag.bind fun r => if r.2.1 = 0 then some r.2.2 else none

/-- `ber_get_stringb`, for a buffer of `room` octets. -/
def getStringb (ber : BerElement) (room : ℕ) : Option (List ℕ × BerElement) :=
  ber.skipElement.bind fun r => if room ≤ r.2.1.length then none else some r.2

/-- `ber_get_stringbv`, with or without `LBER_BV_STRING`. -/
def getStringbv (ber : BerElement) (string : Bool) : Option (List ℕ × BerElement) :=
  ber.skipElement.bind fun r => if string = true ∧ 0 ∈ r.2.1.dropLast then none else some r.2

/-- The loop of `ber_get_stringbvl` that counts, for at most `n` elements. -/
def countTo (last : ℕ) : ℕ → ℕ → BerElement → ℕ × BerElement
  | 0, i, ber => (i, ber)
  | n + 1, i, ber =>
    if ber.ptr < last then
      match ber.skipElement with
      | none => (i, ber)
      | some r => countTo last n (i + 1) r.2.2
    else (i, ber)

/-- The loop of `ber_get_stringbvl` that reads. -/
def getStrings (string : Bool) : ℕ → BerElement → Option (List (List ℕ) × BerElement)
  | 0, ber => some ([], ber)
  | n + 1, ber => (ber.getStringbv string).bind fun s => (getStrings string n s.2).map fun ss => (s.1 :: ss.1, ss.2)

/-- `ber_get_stringbvl` -/
def getStringbvl (ber : BerElement) (string : Bool) : Option (List (List ℕ) × BerElement) :=
  ber.skipTag.bind fun r =>
    let orig := r.2.2
    let last := orig.ptr + r.2.1
    let count := countTo last r.2.1 0 orig
    if count.2.ptr ≠ last then none else getStrings string count.1 (orig.seek orig.ptr)

end BerElement

/-- The items of `ber_scanf`; `room` is the length of a buffer. -/
inductive ScanItem where
  | a
  | b
  | e
  | i
  | n
  | o
  | O
  | s (room : ℕ)
  | t
  | v
  | V
  | W
  | openSeq
  | openSet
  | close
deriving DecidableEq

inductive Scanned where
  | tag (tag : ℕ)
  | int (num : ℤ)
  | null
  | str (s : List ℕ)
  | strs (ss : List (List ℕ))
deriving DecidableEq

namespace BerElement

/-- The items that stand behind `{` without a tag of their own to skip. -/
def vectorItems : List ScanItem := [.v, .V, .W]

/-- One round of the loop of `ber_scanf`, with the item behind it. -/
def scanItem (ber : BerElement) (next : Option ScanItem) : ScanItem → Option (List Scanned × BerElement)
  | .a => (ber.getStringbv true).map fun r => ([.str r.1], r.2)
  | .b => ber.getInt.map fun r => ([.int r.1], r.2)
  | .e => ber.getInt.map fun r => ([.int r.1], r.2)
  | .i => ber.getInt.map fun r => ([.int r.1], r.2)
  | .n => ber.getNull.map fun ber => ([.null], ber)
  | .o => (ber.getStringbv false).map fun r => ([.str r.1], r.2)
  | .O => (ber.getStringbv false).map fun r => ([.str r.1], r.2)
  | .s room => (ber.getStringb room).map fun r => ([.str r.1], r.2)
  | .t => ber.peekTag.map fun tag => ([.tag tag], ber)
  | .v => (ber.getStringbvl true).map fun r => ([.strs r.1], r.2)
  | .V => (ber.getStringbvl false).map fun r => ([.strs r.1], r.2)
  | .W => (ber.getStringbvl false).map fun r => ([.strs r.1], r.2)
  | .openSeq => if next.any (· ∈ vectorItems) then some ([], ber) else ber.skipTag.map fun r => ([], r.2.2)
  | .openSet => if next.any (· ∈ vectorItems) then some ([], ber) else ber.skipTag.map fun r => ([], r.2.2)
  | .close => some ([], ber)

/-- `ber_scanf` -/
def scanf (ber : BerElement) : List ScanItem → Option (List Scanned × BerElement)
  | [] => some ([], ber)
  | item :: items =>
    (ber.scanItem items.head? item).bind fun r => (r.2.scanf items).map fun rs => (r.1 ++ rs.1, rs.2)

end BerElement
end Libreldap
end ReOpenLDAP
