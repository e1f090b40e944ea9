import ReOpenLDAP.Libreldap.BerElement

/-!
# Libreldap.Encode

`ber_printf` and the `ber_put_*` calls it makes.

* `putInt`, `putOstring`           — elements that are written at once.
-/

namespace ReOpenLDAP
namespace Libreldap

open Ber Bytes

def MAXINT_BERSIZE : ℕ := 2147483630

def SOS_LENLEN : ℕ := 5

def LBER_BOOLEAN : ℕ := 0x01
def LBER_INTEGER : ℕ := 0x02
def LBER_OCTETSTRING : ℕ := 0x04
def LBER_NULL : ℕ := 0x05
def LBER_ENUMERATED : ℕ := 0x0a
def LBER_SEQUENCE : ℕ := 0x30
def LBER_SET : ℕ := 0x31

/-- `ber_int_t` -/
abbrev BerInt := { n : ℤ // -2 ^ 31 ≤ n ∧ n < 2 ^ 31 }

abbrev CString := { s : List ℕ // 0 ∉ s }

/-- `ber_tag_t` -/
abbrev BerTag := { t : ℕ // t ≤ LBER_DEFAULT }

def prepend : ℕ → ℕ → List ℕ → List ℕ
  | 0, _, ptr => ptr
  | n + 1, v, ptr => if v / 256 = 0 then v % 256 :: ptr else prepend n (v / 256) (v % 256 :: ptr)

/-- `ber_prepend_tag`, with `TAGBUF_SIZE` octets. -/
def prependTag (ptr : List ℕ) (tag : ℕ) : List ℕ := prepend 8 tag ptr

/-- `ber_prepend_len` -/
def prependLen (ptr : List ℕ) (len : ℕ) : List ℕ :=
  let octets := prepend 8 len []
  if 0x80 ≤ len then (octets.length + 0x80) :: octets ++ ptr else octets ++ ptr

/-- The loop of `ber_put_int_or_enum` down to the sign bit. -/
def intLoop (sign : ℕ) : ℕ → ℕ → List ℕ → List ℕ
  | 0, _, ptr => ptr
  | n + 1, unum, ptr =>
    let octet := if sign = 0 then unum % 256 else 255 - unum % 256
    if unum < 0x80 then octet :: ptr else intLoop sign n (unum / 256) (octet :: ptr)

def intOctets (num : ℤ) : List ℕ := if num < 0 then intLoop 0xff 4 (-1 - num).toNat [] else intLoop 0 4 num.toNat []

/-- A tag that is not `LBER_DEFAULT`, or else the one of the type. -/
def tagOr (tag deflt : ℕ) : ℕ := if tag = LBER_DEFAULT then deflt else tag

variable (memory : Allocator)

namespace BerElement

/-- `ber_put_int_or_enum`, with the tag of an integer or an enumeration. -/
def putIntOrEnum (ber : BerElement) (num : BerInt) (tag : ℕ) : Option BerElement :=
  let octets := intOctets num.1
  ber.write memory (prependTag (octets.length :: octets) tag)

/-- `ber_put_int` -/
def putInt (ber : BerElement) (num : BerInt) (tag : ℕ) : Option BerElement := ber.putIntOrEnum memory num (tagOr tag LBER_INTEGER)

/-- `ber_put_enum` -/
def putEnum (ber : BerElement) (num : BerInt) (tag : ℕ) : Option BerElement :=
  ber.putIntOrEnum memory num (tagOr tag LBER_ENUMERATED)

/-- `ber_put_ostring` -/
def putOstring (ber : BerElement) (str : List ℕ) (tag : ℕ) : Option BerElement :=
  if MAXINT_BERSIZE < str.length then none
  else (ber.write memory (prependTag (prependLen [] str.length) (tagOr tag LBER_OCTETSTRING))).bind fun ber => ber.write memory str

/-- `ber_put_null` -/
def putNull (ber : BerElement) (tag : ℕ) : Option BerElement := ber.write memory (prependTag [0] (tagOr tag LBER_NULL))

/-- `ber_put_boolean` -/
def putBoolean (ber : BerElement) (boolval : BerInt) (tag : ℕ) : Option BerElement :=
  ber.write memory (prependTag [1, if boolval.1 ≠ 0 then 0xff else 0] (tagOr tag LBER_BOOLEAN))

/-- `ber_start_seqorset`. The octets that are reserved for the length hold the length of the tag and the offset of the enclosing
sequence, the low octet first. -/
def startSeqorset (ber : BerElement) (tag : ℕ) : Option BerElement :=
  if ber.sosPtr.isSome ∧ 2 ^ 32 - 1 < ber.sosInner then none
  else
    let offset := if ber.sosPtr.isSome then ber.sosInner else 0
    let headptr := prependTag [] tag
    (ber.reserve memory (headptr.length + SOS_LENLEN)).map fun ber =>
      { ber with
        buf := store ber.buf ber.cursor (headptr ++ headptr.length :: leBytes 4 offset)
        sosPtr := some (ber.cursor + (headptr.length + SOS_LENLEN))
        sosInner := ber.cursor + headptr.length }

/-- `ber_put_seqorset`: the length of the element and the state behind it. By default the length has `SOS_LENLEN` octets and nothing
moves. -/
def putSeqorset (ber : BerElement) : Option (ℕ × BerElement) :=
  ber.sosPtr.bind fun sosPtr =>
    let lenptr := ber.sosInner
    let xlen := sosPtr - lenptr
    if MAXINT_BERSIZE + SOS_LENLEN < xlen then none
    else
      let header := (ber.buf.drop lenptr).take SOS_LENLEN
      let taglen := header.headD 0
      let offset := beNat header.tail.reverse
      let len := xlen - SOS_LENLEN
      let octets := if ber.der then prependLen [] len else (SOS_LENLEN - 1 + 0x80) :: beBytes 4 len
      let unused := SOS_LENLEN - octets.length
      let buf := store ber.buf (lenptr + unused) octets
      let buf := if unused = 0 then buf else store buf lenptr ((buf.drop (lenptr + unused)).take (xlen - unused))
      let sosPtr := lenptr + (xlen - unused)
      some (xlen - unused + taglen,
        { ber with
          buf := buf
          sosInner := offset
          sosPtr := if offset = 0 then none else some sosPtr
          ptr := if offset = 0 then sosPtr else ber.ptr })

end BerElement

/-- The items that write elements, with their arguments. A vector that is a null pointer is like an empty one. -/
inductive Elem where
  | b (boolval : BerInt)
  | e (num : BerInt)
  | i (num : BerInt)
  | n
  | o (s : List ℕ)
  | O (bv : Option (List ℕ))
  | s (s : CString)
  | v (ss : List CString)
  | V (bvs : List (List ℕ))
  | W (bvs : List (List ℕ))
deriving DecidableEq

inductive Item where
  | elem (e : Elem)
  | t (tag : BerTag)
  | openSeq
  | openSet
  | close
deriving DecidableEq

namespace BerElement

def putAll (ber : BerElement) : List (List ℕ) → Option BerElement
  | [] => some ber
  | s :: ss => (ber.putOstring memory s ber.tag).bind fun ber => ber.putAll ss

def putElem (ber : BerElement) : Elem → Option BerElement
  | .b boolval => ber.putBoolean memory boolval ber.tag
  | .e num => ber.putEnum memory num ber.tag
  | .i num => ber.putInt memory num ber.tag
  | .n => ber.putNull memory ber.tag
  | .o s => ber.putOstring memory s ber.tag
  | .O none => some ber
  | .O (some bv) => ber.putOstring memory bv ber.tag
  | .s s => ber.putOstring memory s.1 ber.tag
  | .v ss => ber.putAll memory (ss.map (·.1))
  | .V bvs => ber.putAll memory bvs
  | .W bvs => ber.putAll memory bvs

/-- One round of the loop of `ber_printf`, and what `ber_put_seq` or `ber_put_set` returns in it. -/
def putItem (ber : BerElement) : Item → Option (List ℕ × BerElement)
  | .elem e => (ber.putElem memory e).map fun ber => ([], { ber with tag := LBER_DEFAULT })
  | .t tag => some ([], { ber with tag := tag.1 })
  | .openSeq => (ber.startSeqorset memory (tagOr ber.tag LBER_SEQUENCE)).map fun ber => ([], { ber with tag := LBER_DEFAULT })
  | .openSet => (ber.startSeqorset memory (tagOr ber.tag LBER_SET)).map fun ber => ([], { ber with tag := LBER_DEFAULT })
  | .close => ber.putSeqorset.map fun r => ([r.1], { r.2 with tag := LBER_DEFAULT })

/-- `ber_printf`: none if a call fails, and otherwise what the calls of `ber_put_seq` and `ber_put_set` return. -/
def printf (ber : BerElement) : List Item → Option (List ℕ × BerElement)
  | [] => some ([], ber)
  | item :: items => (ber.putItem memory item).bind fun r => (r.2.printf items).map fun rs => (r.1 ++ rs.1, rs.2)

end BerElement

inductive Fmt where
  | nil
  | t (tag : BerTag) (rest : Fmt)
  | elem (e : Elem) (rest : Fmt)
  | seq (inner rest : Fmt)
  | set (inner rest : Fmt)
deriving DecidableEq

def Fmt.items : Fmt → List Item
  | nil => []
  | t tag rest => .t tag :: rest.items
  | elem e rest => .elem e :: rest.items
  | seq inner rest => .openSeq :: (inner.items ++ .close :: rest.items)
  | set inner rest => .openSet :: (inner.items ++ .close :: rest.items)

end Libreldap
end ReOpenLDAP
